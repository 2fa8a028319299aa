import StarOs.Kernel.Coherence

/-! What each call does to a coherent machine, one lemma per function: it never
panics, and on the wire it is one move of a rendezvous channel or none. -/

namespace StarOs.Kernel

open Library

/-- The errors that refuse a call outright. -/
def KError.refusal : KError → Bool
  | .permissionDenied | .badHandle | .noSuchSyscall => true
  | _ => false

/-- A call coming back, neither refused nor with a message. -/
def Event.closing : Event → Bool
  | .sendReturned _ _ | .recvReturned _ (.error _) | .sysret _ (.ok _) _ => true
  | .sysret _ (.error e) _ => !e.refusal
  | _ => false

/-- A call coming back, unless refused. -/
def Event.back : Event → Bool
  | .sendReturned _ _ | .recvReturned _ _ | .sysret _ (.ok _) _ => true
  | .sysret _ (.error e) _ => !e.refusal
  | _ => false

theorem Event.back_of_closing {ev : Event} (h : ev.closing) : ev.back := by
  cases ev with
  | recvReturned t r => rfl
  | sendReturned t r => rfl
  | sysret t rc rip => cases rc <;> exact h
  | _ => cases h

/-- `ipc::send` or `ipc::recv` answering an error. -/
def Event.declines : Event → Bool
  | .sendReturned _ (.error _) | .recvReturned _ (.error _) => true
  | _ => false

/-- The task's memory. -/
def Task.mem (x : Task) : UInt64 → UInt64 :=
  match x.space with
  | some s => s.mem
  | none => fun _ => 0

/-- The task with its table and memory rewritten. -/
def Task.rewrite (caps : CapTable) (mem : UInt64 → UInt64) (x : Task) : Task :=
  { x with caps := caps, space := x.space.map fun s => { s with mem := mem } }

@[simp] theorem Task.core_rewrite (caps : CapTable) (mem : UInt64 → UInt64) (x : Task) :
    (x.rewrite caps mem).core = x.core := by
  simp [Task.rewrite, Task.core, Task.reach, Function.comp_def]

@[simp] theorem Task.rewrite_rewrite (caps caps' : CapTable) (mem mem' : UInt64 → UInt64)
    (x : Task) : (x.rewrite caps mem).rewrite caps' mem' = x.rewrite caps' mem' := by
  simp [Task.rewrite, Function.comp_def]

@[simp] theorem Task.rewrite_self (x : Task) : x.rewrite x.caps x.mem = x := by
  obtain ⟨ctx, stack, top, cr3, space, caps, mailbox, state⟩ := x
  cases space <;> rfl

theorem Task.rewrite_eq {x : Task} {s : UserSpace} (hs : x.space = some s) (caps : CapTable)
    (mem : UInt64 → UInt64) :
    x.rewrite caps mem = { x with caps := caps, space := some { s with mem := mem } } := by
  simp [Task.rewrite, hs]

theorem Task.mem_eq {x : Task} {s : UserSpace} (hs : x.space = some s) : x.mem = s.mem := by
  simp [Task.mem, hs]

namespace Machine

variable {k : Machine} {t : ℕ} {x : Task}

/-- `k'` differs from `k` in the table and memory of task `t` and in bookkeeping only. -/
structure Own (t : ℕ) (k k' : Machine) : Prop where
  task : ∃ caps mem, k'.tasks = k.tasks.modify t (Task.rewrite caps mem)
  bootstrap : k'.bootstrap = k.bootstrap
  current : k'.current = k.current
  prev : k'.prev = k.prev
  loaded : k'.loaded = k.loaded
  ipc : k'.ipc = k.ipc
  objects : k'.objects = k.objects

theorem modify_congr {l : List Task} {i : ℕ} {t : Task} (h : l[i]? = some t) {f g : Task → Task}
    (hfg : f t = g t) : l.modify i f = l.modify i g := by
  apply List.ext_getElem?
  intro n
  by_cases hn : i = n
  · subst hn
    simp [h, hfg]
  · simp [hn]

theorem modify_self {l : List Task} {i : ℕ} {t : Task} (h : l[i]? = some t) {f : Task → Task}
    (hf : f t = t) : l.modify i f = l :=
  (modify_congr h (g := id) hf).trans (List.modify_id i l)

/-- Touching no task at all is a special case. -/
theorem Own.of_tasks {k' : Machine} (hx : k.tasks[t]? = some x) (h : k'.tasks = k.tasks)
    (hb : k'.bootstrap = k.bootstrap) (hc : k'.current = k.current) (hp : k'.prev = k.prev)
    (hl : k'.loaded = k.loaded) (hi : k'.ipc = k.ipc) (ho : k'.objects = k.objects) :
    Own t k k' :=
  ⟨⟨x.caps, x.mem, by rw [h, modify_self hx x.rewrite_self]⟩, hb, hc, hp, hl, hi, ho⟩

theorem Own.refl (hx : k.tasks[t]? = some x) : Own t k k :=
  .of_tasks hx rfl rfl rfl rfl rfl rfl rfl

theorem Own.trans {k₁ k₂ k₃ : Machine} (h : Own t k₁ k₂) (h' : Own t k₂ k₃) : Own t k₁ k₃ := by
  obtain ⟨c, s, ht⟩ := h.task
  obtain ⟨c', s', ht'⟩ := h'.task
  refine ⟨⟨c', s', ?_⟩, h'.bootstrap.trans h.bootstrap, h'.current.trans h.current,
    h'.prev.trans h.prev, h'.loaded.trans h.loaded, h'.ipc.trans h.ipc,
    h'.objects.trans h.objects⟩
  rw [ht', ht, List.modify_modify_eq]
  exact congrArg _ (funext fun x => Task.rewrite_rewrite ..)

theorem Own.sameSched {k' : Machine} (h : Own t k k') : SameSched k k' := by
  obtain ⟨c, s, ht⟩ := h.task
  refine ⟨?_, h.bootstrap, h.current, h.prev, h.loaded⟩
  rw [ht]
  exact map_modify_of_eq _ _ fun x => Task.core_rewrite c s x

theorem Own.getElem?_self {k' : Machine} (h : Own t k k') (hx : k.tasks[t]? = some x) :
    ∃ caps mem, k'.tasks[t]? = some (x.rewrite caps mem) := by
  obtain ⟨c, s, ht⟩ := h.task
  exact ⟨c, s, by rw [ht]; simp [hx]⟩

theorem Own.getElem?_ne {k' : Machine} (h : Own t k k') {i : ℕ} (hi : t ≠ i) :
    k'.tasks[i]? = k.tasks[i]? := by
  obtain ⟨c, s, ht⟩ := h.task
  rw [ht]
  simp [hi]

/-- The history grew by events of one kind. -/
def Grew (P : Event → Prop) (k k' : Machine) : Prop :=
  ∃ evs, k'.log = evs ++ k.log ∧ ∀ ev ∈ evs, P ev

section

variable {P : Event → Prop}

theorem Grew.of_log {k' : Machine} (h : k'.log = k.log) : Grew P k k' := ⟨[], h, by simp⟩

theorem Grew.of_cons {k' : Machine} {ev : Event} (h : k'.log = ev :: k.log) (hev : P ev) :
    Grew P k k' :=
  ⟨[ev], h, by simpa using hev⟩

theorem Grew.mono {Q : Event → Prop} {k' : Machine} (h : Grew P k k') (hPQ : ∀ ev, P ev → Q ev) :
    Grew Q k k' := by
  obtain ⟨evs, hlog, hev⟩ := h
  exact ⟨evs, hlog, fun ev hmem => hPQ ev (hev ev hmem)⟩

theorem Grew.trans {k₁ k₂ k₃ : Machine} (h : Grew P k₁ k₂) (h' : Grew P k₂ k₃) :
    Grew P k₁ k₃ := by
  obtain ⟨evs, hlog, hev⟩ := h
  obtain ⟨evs', hlog', hev'⟩ := h'
  refine ⟨evs' ++ evs, by rw [hlog', hlog, List.append_assoc], ?_⟩
  intro ev hmem
  rcases List.mem_append.mp hmem with hmem | hmem
  · exact hev' ev hmem
  · exact hev ev hmem

end

/-! ### Going back to the caller -/

theorem sysret_eq (frame : Frame) (corrupt : Bool) (rc : Rc) (hk : k.current = some t) :
    k.sysret frame corrupt rc = .ok ((k.swapGs).record
      (.sysret t rc (if corrupt then noncanonicalRip else frame.rip))) := by
  simp only [sysret, currentId_eq hk, ok_bind]

theorem own_record (hx : k.tasks[t]? = some x) (ev : Event) : Own t k (k.record ev) :=
  .of_tasks hx rfl rfl rfl rfl rfl rfl rfl

theorem own_swapGs (hx : k.tasks[t]? = some x) : Own t k k.swapGs :=
  .of_tasks hx rfl rfl rfl rfl rfl rfl rfl

/-- The way back touches no task. -/
theorem sysret_own (frame : Frame) (corrupt : Bool) (rc : Rc) (hk : k.current = some t)
    (hx : k.tasks[t]? = some x) : ∃ k', k.sysret frame corrupt rc = .ok k' ∧ Own t k k' ∧
      k'.tasks = k.tasks ∧
      k'.log = .sysret t rc (if corrupt then noncanonicalRip else frame.rip) :: k.log :=
  ⟨_, sysret_eq frame corrupt rc hk, (own_swapGs hx).trans (own_record (k := k.swapGs) hx _), rfl, rfl⟩

theorem returnSend_spec (caller : Caller) (result : Except KError Unit) (hk : k.current = some t)
    (hx : k.tasks[t]? = some x) (hres : ∀ e, result = .error e → e.refusal = false) :
    ∃ k', k.returnSend caller result = .ok k' ∧ Own t k k' ∧ k'.tasks = k.tasks ∧
      traffic k'.log = traffic k.log ∧
      Grew (fun ev => ev.closing ∧ (ev.declines → ∃ e, result = .error e)) k k' := by
  simp only [returnSend, currentId_eq hk, ok_bind]
  have hgrew : Grew (fun ev => ev.closing ∧ (ev.declines → ∃ e, result = .error e)) k
      (k.record (.sendReturned t result)) := by
    refine .of_cons rfl ⟨rfl, fun h => ?_⟩
    cases result with
    | ok u => cases h
    | error e => exact ⟨e, rfl⟩
  cases caller with
  | thread => exact ⟨_, rfl, own_record hx _, rfl, rfl, hgrew⟩
  | ring3 frame corrupt via =>
    have hown := (own_record hx (.sendReturned t result)).trans (own_swapGs hx)
    obtain ⟨k', hret, hback, htasks, hlog⟩ :=
      sysret_own (k := (k.record (.sendReturned t result)).swapGs) frame corrupt _ hk hx
    refine ⟨k', hret, hown.trans hback, htasks, ?_, hgrew.trans (.of_cons hlog ?_)⟩
    · rw [hlog]
      rfl
    cases result with
    | ok u => exact ⟨rfl, fun h => by cases h⟩
    | error e => exact ⟨by simp [Event.closing, hres e rfl], fun h => by cases h⟩

theorem writable_space {ptr : UInt64} (hw : x.Writable ptr) :
    ptr % 8 = 0 ∧ ∃ s, x.space = some s ∧ s.rangeOk ptr messageSize true = true := by
  obtain ⟨halign, ok, hok, hyes⟩ := hw
  obtain ⟨s, hs, rfl⟩ := Option.map_eq_some_iff.mp hok
  exact ⟨halign, s, hs, hyes⟩

/-- The machine with the table and memory of task `t` rewritten. -/
def rewriteTask (t : ℕ) (caps : CapTable) (mem : UInt64 → UInt64) (k : Machine) : Machine :=
  { k with tasks := k.tasks.modify t (Task.rewrite caps mem) }

theorem own_rewriteTask (caps : CapTable) (mem : UInt64 → UInt64) :
    Own t k (k.rewriteTask t caps mem) :=
  ⟨⟨caps, mem, rfl⟩, rfl, rfl, rfl, rfl, rfl, rfl⟩

theorem rewriteTask_getElem? (caps : CapTable) (mem : UInt64 → UInt64)
    (hx : k.tasks[t]? = some x) :
    (k.rewriteTask t caps mem).tasks[t]? = some (x.rewrite caps mem) := by
  simp [rewriteTask, hx]

theorem rewriteTask_eq {f : Task → Task} {caps : CapTable} {mem : UInt64 → UInt64}
    (hx : k.tasks[t]? = some x) (hf : f x = x.rewrite caps mem) :
    ({ k with tasks := k.tasks.modify t f } : Machine) = k.rewriteTask t caps mem := by
  rw [rewriteTask, modify_congr hx hf]

theorem writeUserMsg_of_writable {ptr : UInt64} (msg : Message) (hk : k.current = some t)
    (hx : k.tasks[t]? = some x) (hw : x.Writable ptr) :
    k.writeUserMsg ptr msg =
      .ok (some (k.rewriteTask t x.caps (msg.write x.mem ptr))) := by
  obtain ⟨halign, s, hs, hok⟩ := writable_space hw
  let f : Task → Task := fun x => { x with space := some { s with mem := msg.write s.mem ptr } }
  have hf : f x = x.rewrite x.caps (msg.write x.mem ptr) := by
    rw [Task.rewrite_eq hs, Task.mem_eq hs]
  simp only [writeUserMsg, halign, ne_eq, not_true_eq_false, ite_false, currentSpace_eq hk hx, hs,
    ok_bind, hok, Bool.not_true, Bool.false_eq_true, currentId_eq hk,
    onTask_eq _ (lt_of_getElem? hx)]
  rw [← rewriteTask_eq hx hf]

theorem writeUserMsg_of_not_writable {ptr : UInt64} (msg : Message) (hk : k.current = some t)
    (hx : k.tasks[t]? = some x) (hw : ¬ x.Writable ptr) :
    k.writeUserMsg ptr msg = .ok none := by
  by_cases halign : ptr % 8 = 0
  · simp only [writeUserMsg, halign, ne_eq, not_true_eq_false, ite_false, currentSpace_eq hk hx,
      ok_bind]
    cases hs : x.space with
    | none => rfl
    | some s =>
      have hno : s.rangeOk ptr messageSize true = false := by
        rw [Bool.eq_false_iff]
        exact fun hok => hw ⟨halign, s.rangeOk, by simp [Task.reach, hs], hok⟩
      simp only [hno, Bool.not_false, if_true]
  · simp only [writeUserMsg, halign, ne_eq, not_false_eq_true, ite_true]

theorem installCapCurrent_none {heap : Heap} {c : Cap} (hk : k.current = some t)
    (hx : k.tasks[t]? = some x) (h : x.caps.install (heap.serves (x.caps.length + 1)) c = none) :
    k.installCapCurrent heap c = .ok (none, k) := by
  simp only [installCapCurrent, hk, task_eq hx, ok_bind, h]

theorem installCapCurrent_some {heap : Heap} {c : Cap} {h : UInt32} {caps : CapTable}
    (hk : k.current = some t) (hx : k.tasks[t]? = some x)
    (hi : x.caps.install (heap.serves (x.caps.length + 1)) c = some (h, caps)) :
    k.installCapCurrent heap c = .ok (some h, k.rewriteTask t caps x.mem) := by
  have hf : ({ x with caps := caps } : Task) = x.rewrite caps x.mem := by
    obtain ⟨ctx, stack, top, cr3, space, caps', mailbox, state⟩ := x
    cases space <;> rfl
  simp only [installCapCurrent]
  split
  · rename_i hnone
    rw [hk] at hnone
    cases hnone
  · rename_i i hi'
    obtain rfl : t = i := Option.some.inj (hk.symm.trans hi')
    simp only [task_eq hx, ok_bind, hi, onTask_eq _ (lt_of_getElem? hx)]
    rw [rewriteTask_eq hx hf]

/-- The table after a receive of `km`: grown by the capability it carried, or not. -/
def Grown (heap : Heap) (km : KMessage) (h : UInt32) (caps caps' : CapTable) : Prop :=
  match km.cap with
  | none => h = 0 ∧ caps' = caps
  | some c => caps.install (heap.serves (caps.length + 1)) c = some (h, caps')

/-- The heap has no room for the capability the message carries. -/
def Starved (heap : Heap) (km : KMessage) (caps : CapTable) : Prop :=
  ∃ c, km.cap = some c ∧ caps.install (heap.serves (caps.length + 1)) c = none

/-- `finishRecv` into a writable buffer: the capability is installed and the
message written with its fresh handle, or the heap refused and nothing changed. -/
theorem finishRecv_spec (heap : Heap) {ptr : UInt64} (km : KMessage) (hk : k.current = some t)
    (hx : k.tasks[t]? = some x) (hw : x.Writable ptr) :
    (∃ h caps, Grown heap km h x.caps caps ∧ k.finishRecv heap ptr km =
      .ok (.ok 0, k.rewriteTask t caps (Message.write { km.msg with cap := h } x.mem ptr))) ∨
    (Starved heap km x.caps ∧ k.finishRecv heap ptr km = .ok (.error .outOfResources, k)) := by
  cases hcap : km.cap with
  | none =>
    left
    refine ⟨0, x.caps, ?_, ?_⟩
    · simp [Grown, hcap]
    · simp only [finishRecv, hcap, ok_bind, writeUserMsg_of_writable _ hk hx hw]
  | some c =>
    cases hinst : x.caps.install (heap.serves (x.caps.length + 1)) c with
    | none =>
      right
      refine ⟨⟨c, hcap, hinst⟩, ?_⟩
      simp only [finishRecv, hcap, installCapCurrent_none hk hx hinst, ok_bind]
    | some p =>
      obtain ⟨h, caps⟩ := p
      left
      have hx' := rewriteTask_getElem? caps x.mem hx
      have hw' : (x.rewrite caps x.mem).Writable ptr := by
        simpa [Task.Writable, Task.reach, Task.rewrite, Function.comp_def] using hw
      have hmem : (x.rewrite caps x.mem).mem = x.mem := by
        cases hs : x.space <;> simp [Task.mem, Task.rewrite, hs]
      refine ⟨h, caps, ?_, ?_⟩
      · simp [Grown, hcap, hinst]
      · simp only [finishRecv, hcap, installCapCurrent_some hk hx hinst, ok_bind,
          writeUserMsg_of_writable (k := k.rewriteTask t caps x.mem) _ hk hx' hw', hmem]
        simp only [rewriteTask, List.modify_modify_eq]
        congr 5
        exact funext fun x => Task.rewrite_rewrite ..

/-- How a receive of `km` comes back to `t`: kernel code gets the message, a ring-3
task finds it in its buffer naming the fresh handle, or is told the heap is full. -/
def Delivered (heap : Heap) (t : ℕ) (caller : Caller) (km : KMessage) (x x' : Task)
    (log log' : List Event) : Prop :=
  match caller with
  | .thread => x' = x ∧ log' = .recvReturned t (.ok km) :: log
  | .ring3 frame _ _ => ∃ rip,
      (∃ h caps, Grown heap km h x.caps caps ∧
        x' = x.rewrite caps (Message.write { km.msg with cap := h } x.mem frame.rsi) ∧
        log' = .sysret t (.ok 0) rip :: .recvReturned t (.ok km) :: log) ∨
      (Starved heap km x.caps ∧ x' = x ∧
        log' = .sysret t (.error .outOfResources) rip :: .recvReturned t (.ok km) :: log)

theorem Delivered.traffic {heap : Heap} {caller : Caller} {km : KMessage} {x' : Task}
    {log log' : List Event} (h : Delivered heap t caller km x x' log log') :
    traffic log' = .got t km :: Machine.traffic log := by
  cases caller with
  | thread => rw [h.2]; rfl
  | ring3 frame corrupt via =>
    obtain ⟨rip, ⟨_, _, -, -, hlog⟩ | ⟨-, -, hlog⟩⟩ := h
    · rw [hlog]; rfl
    · rw [hlog]; rfl

theorem Delivered.grew {heap : Heap} {caller : Caller} {km : KMessage} {x' : Task} {k' : Machine}
    (h : Delivered heap t caller km x x' k.log k'.log) :
    Grew (fun ev => ev.back ∧ ev.declines = false) k k' := by
  cases caller with
  | thread => exact .of_cons h.2 ⟨rfl, rfl⟩
  | ring3 frame corrupt via =>
    obtain ⟨rip, ⟨_, _, -, -, hlog⟩ | ⟨-, -, hlog⟩⟩ := h
    all_goals exact ⟨[_, _], hlog, by simp [Event.back, Event.declines, KError.refusal]⟩

theorem Delivered.core {heap : Heap} {caller : Caller} {km : KMessage} {x' : Task}
    {log log' : List Event} (h : Delivered heap t caller km x x' log log') :
    x'.core = x.core := by
  cases caller with
  | thread => rw [h.1]
  | ring3 frame corrupt via =>
    obtain ⟨rip, ⟨_, _, -, hx', -⟩ | ⟨-, hx', -⟩⟩ := h
    · rw [hx', Task.core_rewrite]
    · rw [hx']

theorem returnRecv_spec (heap : Heap) (caller : Caller) (km : KMessage)
    (hk : k.current = some t) (hx : k.tasks[t]? = some x) (hhost : x.Hosts caller) :
    ∃ k' x', k.returnRecv heap caller (.ok km) = .ok k' ∧ Own t k k' ∧ k'.tasks[t]? = some x' ∧
      Delivered heap t caller km x x' k.log k'.log := by
  have hown := own_record hx (.recvReturned t (.ok km))
  simp only [returnRecv, currentId_eq hk, ok_bind]
  cases caller with
  | thread => exact ⟨_, x, rfl, hown, hx, rfl, rfl⟩
  | ring3 frame corrupt via =>
    rcases finishRecv_spec (k := k.record (.recvReturned t (.ok km))) heap km hk hx hhost with
      ⟨h, caps, hgrown, heq⟩ | ⟨hstarved, heq⟩
    · let k₁ := (k.record (.recvReturned t (.ok km))).rewriteTask t caps
        (Message.write { km.msg with cap := h } x.mem frame.rsi)
      have hx₁ : k₁.tasks[t]? = some _ := rewriteTask_getElem? caps _ hx
      have hown₁ := (hown.trans (own_rewriteTask caps _)).trans (own_swapGs hx₁)
      obtain ⟨k', hret, hback, htasks, hlog⟩ := sysret_own (k := k₁.swapGs) frame corrupt _ hk hx₁
      simp only [heq, ok_bind]
      refine ⟨k', _, hret, hown₁.trans hback, ?_, _, .inl ⟨h, caps, hgrown, rfl, hlog⟩⟩
      rw [htasks]
      exact hx₁
    · obtain ⟨k', hret, hback, htasks, hlog⟩ :=
        sysret_own (k := (k.record (.recvReturned t (.ok km))).swapGs) frame corrupt _ hk hx
      simp only [heq, ok_bind]
      refine ⟨k', x, hret, (hown.trans (own_swapGs hx)).trans hback, ?_, _,
        .inr ⟨hstarved, rfl, hlog⟩⟩
      rw [htasks]
      exact hx

/-- A receive that fails has nothing to deliver. -/
theorem returnRecv_error (heap : Heap) (caller : Caller) {e : KError} (hk : k.current = some t)
    (hx : k.tasks[t]? = some x) (hres : e.refusal = false) :
    ∃ k', k.returnRecv heap caller (.error e) = .ok k' ∧ Own t k k' ∧ k'.tasks = k.tasks ∧
      traffic k'.log = traffic k.log ∧ Grew (fun ev => ev.closing) k k' := by
  have hgrew : Grew (fun ev => ev.closing) k (k.record (.recvReturned t (.error e))) :=
    .of_cons rfl rfl
  simp only [returnRecv, currentId_eq hk, ok_bind]
  cases caller with
  | thread => exact ⟨_, rfl, own_record hx _, rfl, rfl, hgrew⟩
  | ring3 frame corrupt via =>
    have hown := (own_record hx (.recvReturned t (.error e))).trans (own_swapGs hx)
    obtain ⟨k', hret, hback, htasks, hlog⟩ :=
      sysret_own (k := (k.record (.recvReturned t (.error e))).swapGs) frame corrupt _ hk hx
    refine ⟨k', hret, hown.trans hback, htasks, ?_, hgrew.trans (.of_cons hlog ?_)⟩
    · rw [hlog]
      rfl
    · simp [Event.closing, hres]

/-! ### Leaving the processor -/

/-- Suspending the running task, in any state but running, settles the machine. -/
theorem Coherent.suspend (k' : Machine) {f : Task → Task} {r : Resume} (hc : k.Coherent)
    (hk : k.current = some t) (hl : k.loaded = none) (hx : k.tasks[t]? = some x)
    (htasks : k'.tasks = k.tasks.modify t f)
    (hok : ({ f x with ctx := .saved r } : Task).Ok none) (hst : (f x).state ≠ .running) :
    (k'.saved (some t) r).Settled := by
  have htasks' : (k'.saved (some t) r).tasks =
      k.tasks.modify t fun x => { f x with ctx := .saved r } := by
    simp only [Machine.saved, htasks, List.modify_modify_eq]
    rfl
  constructor
  · intro i y hy
    rw [htasks'] at hy
    by_cases hi : t = i
    · subst hi
      obtain rfl : { f x with ctx := .saved r } = y := by simpa [hx] using hy
      exact hok
    · exact hl ▸ hc.ok i y (by simpa [hi] using hy)
  · intro i y hy
    rw [htasks'] at hy
    by_cases hi : t = i
    · subst hi
      obtain rfl : { f x with ctx := .saved r } = y := by simpa [hx] using hy
      exact hst
    · intro hrun
      have hcur := (hc.running i y (by simpa [hi] using hy)).mp hrun
      exact hi (Option.some.inj (hk.symm.trans hcur))

theorem net_suspend (k' : Machine) {f : Task → Task} {r : Resume} (hl : k.loaded = none)
    (hx : k.tasks[t]? = some x) (htasks : k'.tasks = k.tasks.modify t f)
    (hl' : k'.loaded = k.loaded) (hipc : k'.ipc = k.ipc) (hlog : k'.log = k.log) :
    (k'.saved (some t) r).net = { k.net with
      phase := Function.update k.net.phase t (({ f x with ctx := .saved r } : Task).phase none) } := by
  have htasks' : (k'.saved (some t) r).tasks =
      k.tasks.modify t fun x => { f x with ctx := .saved r } := by
    simp only [Machine.saved, htasks, List.modify_modify_eq]
    rfl
  have hphase := phase_modify (k'.saved (some t) r) hx htasks' hl'
  rw [hl] at hphase
  exact Net.ext (by simp [Machine.net, Machine.saved, hipc]) hphase
    (by simp [Machine.net, Machine.saved, hlog])

theorem map_authority_of_holdings {l l' : List Task}
    (h : l'.map Task.holdings = l.map Task.holdings) :
    l'.map Task.authority = l.map Task.authority := by
  have := congrArg (List.map fun p : Option UserSpace × CapTable × Option KMessage => (p.1, p.2.1)) h
  rw [List.map_map, List.map_map] at this
  exact this

/-- Parking: the task waits, somebody else is switched to, nothing else moves. -/
theorem park_spec {r : Resume} (hc : k.Coherent) (hk : k.current = some t)
    (hl : k.loaded = none) (hr : r.parks) (hx : k.tasks[t]? = some x) (hfit : x.Fits r) :
    ∃ k', k.parkAndSwitch r = .ok k' ∧ k'.Coherent ∧ Switched k k' ∧
      k'.net = { k.net with phase := Function.update k.net.phase t r.waits } := by
  obtain ⟨y, hy, hrun, hmail, -⟩ := hc.current_task hk hl
  obtain rfl : x = y := Option.some.inj (hx.symm.trans hy)
  let f : Task → Task := fun t => { t with state := .blocked }
  let k₁ : Machine := { k with
    tasks := k.tasks.modify t f
    stats := { k.stats with blocks := k.stats.blocks + 1 } }
  have hx₁ : k₁.tasks[t]? = some (f x) := by simp [k₁, hx]
  have hs : (k₁.saved (some t) r).Settled :=
    hc.suspend k₁ (f := f) hk hl hx rfl ⟨r, rfl, hr, hmail, Task.fits_of_reach rfl hfit⟩ (by simp [f])
  have hnet := net_suspend k₁ (f := f) (r := r) hl hx rfl rfl rfl rfl
  have hb : k₁.bootstrap = .saved .inStart := hc.bootstrap (by simp [hk])
  obtain ⟨k', hsw, hc', hnet', hswd⟩ := switchAway_spec hs hl hb hx₁ (by simp [f])
  have hsame : Switched k k₁ := ⟨map_modify_of_eq _ _ fun t => rfl, rfl, rfl, rfl⟩
  refine ⟨k', ?_, hc', hsame.trans hswd, ?_⟩
  · unfold parkAndSwitch
    split
    · rename_i hnone
      rw [hk] at hnone
      cases hnone
    · rename_i p hp
      obtain rfl : t = p := Option.some.inj (hk.symm.trans hp)
      rw [onTask_eq _ (lt_of_getElem? hx), ok_bind]
      exact hsw
  · rw [hnet', hnet]
    rfl

/-- Being rescheduled: nothing happens, or somebody else is switched to; either
way nothing moves. -/
theorem reschedule_spec {r : Resume} (hc : k.Coherent) (hl : k.loaded = none)
    (hr : r.ofTask) (ha : r.awaits = false) (hph : ∀ m, r.phase m = .free) :
    k.reschedule r = .ok none ∨
    ∃ k', k.reschedule r = .ok (some k') ∧ k'.Coherent ∧ Switched k k' ∧ k'.net = k.net := by
  unfold reschedule
  split
  · exact .inl rfl
  · rename_i t hk
    split
    · exact .inl rfl
    · rename_i next hpick
      right
      obtain ⟨x, hx, hrun, hmail, hfree⟩ := hc.current_task hk hl
      obtain ⟨y, hy, hready⟩ := pickNext_some hpick
      have hne : t ≠ next := by
        intro htn
        rw [← htn, hx] at hy
        rw [← Option.some.inj hy, hrun] at hready
        cases hready
      let f : Task → Task := fun t => if t.state = .running then { t with state := .ready } else t
      have hfx : f x = { x with state := .ready } := by simp [f, hrun]
      let k₁ : Machine := { k with tasks := k.tasks.modify t f }
      have hs : (k₁.saved (some t) r).Settled := by
        refine hc.suspend k₁ (f := f) hk hl hx rfl ?_ (by simp [hfx])
        rw [hfx]
        have hfit : ∀ y : Task, y.Fits r := by
          intro y
          cases r with
          | recvParked ep c => cases ha
          | _ => trivial
        exact ⟨r, rfl, hr, by simp [hmail, ha], hfit _⟩
      have hnet := net_suspend k₁ (f := f) (r := r) hl hx rfl rfl rfl rfl
      have hb : (k₁.saved (some t) r).bootstrap = .saved .inStart := hc.bootstrap (by simp [hk])
      have hy₁ : k₁.tasks[next]? = some y := by simp [k₁, hne, hy]
      obtain ⟨k', hsw, hc', hnet', hswd⟩ := dispatch_spec hs hl hb
        (fun i hi => by
          obtain rfl := Option.some.inj hi
          exact ⟨by simpa [k₁] using lt_of_getElem? hx, hne⟩) hy₁ hready
      have hsame : Switched k k₁ := by
        refine ⟨map_modify_of_eq _ _ fun t => ?_, rfl, rfl, rfl⟩
        by_cases h : t.state = .running <;> simp [f, h, Task.holdings]
      refine ⟨k', ?_, hc', hsame.trans hswd, ?_⟩
      · rw [onTask_eq _ (lt_of_getElem? hx), ok_bind, hsw]
        rfl
      · have hphase : ({ f x with ctx := .saved r } : Task).phase none = k.net.phase t := by
          rw [hfx]
          exact (hph _).trans hfree.symm
        rw [hnet', hnet, hphase, Function.update_eq_self]

/-- A task at large stands in no queue. -/
theorem forgetTask_of_free (hq : k.net.Queued ringCap) (hfree : k.phase t = .free) :
    k.forgetTask t = (0, k) := by
  have hno : ∀ ep, (k.ipc ep).removeWaiter t = (false, k.ipc ep) := by
    intro ep
    apply Endpoint.removeWaiter_of_absent
    · intro hmem
      have := (hq.receiving ep t).mp hmem
      rw [show k.net.phase t = .free from hfree] at this
      cases this
    · intro hmem
      have := (hq.sending ep t).mp hmem
      rw [show k.net.phase t = .free from hfree] at this
      cases this
  simp [forgetTask, hno]

/-- Exiting: the task is gone, somebody else is switched to, and no queue held it. -/
theorem exit_spec (hc : k.Coherent) (hq : k.net.Queued ringCap) (hk : k.current = some t)
    (hl : k.loaded = none) :
    ∃ k', k.exit = .ok k' ∧ k'.Coherent ∧ Switched k k' ∧
      k'.net = { k.net with phase := Function.update k.net.phase t .gone } := by
  obtain ⟨x, hx, hrun, hmail, hfree⟩ := hc.current_task hk hl
  let f : Task → Task := fun t => { t with state := .dead }
  let k₁ : Machine := { k with tasks := k.tasks.modify t f }
  have hx₁ : k₁.tasks[t]? = some (f x) := by simp [k₁, hx]
  have hs : (k₁.saved (some t) .exited).Settled :=
    hc.suspend k₁ (f := f) hk hl hx rfl hmail (by simp [f])
  have hnet := net_suspend k₁ (f := f) (r := .exited) hl hx rfl rfl rfl rfl
  have hb : k₁.bootstrap = .saved .inStart := hc.bootstrap (by simp [hk])
  obtain ⟨k', hsw, hc', hnet', hswd⟩ := switchAway_spec hs hl hb hx₁ (by simp [f])
  have hsame : Switched k k₁ := ⟨map_modify_of_eq _ _ fun t => rfl, rfl, rfl, rfl⟩
  refine ⟨k', ?_, hc', hsame.trans hswd, ?_⟩
  · simp only [exit, currentId_eq hk, ok_bind, forgetTask_of_free hq hfree, gt_iff_lt,
      Nat.lt_irrefl, if_false]
    rw [onTask_eq _ (by exact lt_of_getElem? hx), ok_bind]
    exact hsw
  · rw [hnet', hnet]
    rfl

/-! ### Sending -/

/-- Waking a parked task: it is ready, with the mailbox it is given. -/
theorem unblock_eq {w : ℕ} {y : Task} (hy : k.tasks[w]? = some y) (hb : y.state = .blocked) :
    k.unblock w = .ok { k with
      tasks := k.tasks.modify w fun t => { t with state := .ready }
      stats := { k.stats with wakeups := k.stats.wakeups + 1 } } := by
  simp only [unblock, task_eq hy, ok_bind, hb, if_true, onTask_eq _ (lt_of_getElem? hy)]
  rfl

theorem deliver_eq {w : ℕ} {y : Task} (km : KMessage) (hy : k.tasks[w]? = some y)
    (hb : y.state = .blocked) :
    k.deliver w km = .ok { k with
      tasks := k.tasks.modify w fun t => { t with mailbox := some km, state := .ready }
      stats := { k.stats with wakeups := k.stats.wakeups + 1 } } := by
  have hy' : ({ k with tasks := k.tasks.modify w fun t => { t with mailbox := some km } } :
      Machine).tasks[w]? = some { y with mailbox := some km } := by simp [hy]
  simp only [deliver, onTask_eq _ (lt_of_getElem? hy), ok_bind, unblock_eq hy' hb,
    List.modify_modify_eq]
  rfl

/-- What a send does. -/
structure SendPost (t ep : ℕ) (km : KMessage) (via : Option ObjectRef) (k k' : Machine) :
    Prop where
  coherent : k'.Coherent
  wire : k'.net = k.net ∨ Net.Step ringCap k.net k'.net
  objects : k'.objects = k.objects
  ipc : k'.ipc = k.ipc ∨ ∃ e : Fin numEndpoints, e = ep ∧
    k'.ipc = Function.update k.ipc e ((k.ipc e).decideSend t km).2
  grew : Grew (fun ev => ev.closing ∨ ∃ e : Fin numEndpoints, e = ep ∧
    ev = .sendAccepted t e km via) k k'
  declined : k'.ipc = k.ipc ∨ Grew (fun ev => ev.declines = false) k k'
  authority : k'.tasks.map Task.authority = k.tasks.map Task.authority
  mail : ∀ (i : ℕ) (y' : Task), k'.tasks[i]? = some y' → ∀ m, y'.mailbox = some m →
    m = km ∨ ∃ y, k.tasks[i]? = some y ∧ y.mailbox = some m

theorem mailbox_of_holdings {l l' : List Task} (h : l'.map Task.holdings = l.map Task.holdings)
    {i : ℕ} {y' : Task} (hy' : l'[i]? = some y') :
    ∃ y, l[i]? = some y ∧ y.holdings = y'.holdings := by
  have hi := congrArg (fun m => m[i]?) h
  simp only [List.getElem?_map, hy', Option.map_some] at hi
  obtain ⟨y, hy, heq⟩ := Option.map_eq_some_iff.mp hi.symm
  exact ⟨y, hy, heq⟩

theorem net_chan_update {e : Fin numEndpoints} {e' : Endpoint} :
    (fun ep => (Function.update k.ipc e e' ep).chan) =
      Function.update (fun ep => (k.ipc ep).chan) e e'.chan := by
  funext ep
  by_cases h : ep = e
  · subst h; simp
  · simp [h]

/-- The machine after a decision on endpoint `e`, recorded and counted, with the
tasks it touched. -/
def decided (e : Fin numEndpoints) (e' : Endpoint) (ev : Event) (tasks : List Task) (s : Stats)
    (k : Machine) : Machine :=
  { k with ipc := Function.update k.ipc e e', log := ev :: k.log, tasks := tasks, stats := s }

theorem decided_sameSched (e : Fin numEndpoints) (e' : Endpoint) (ev : Event) (s : Stats) :
    SameSched k (k.decided e e' ev k.tasks s) :=
  ⟨rfl, rfl, rfl, rfl, rfl⟩

/-- Answering the caller changes nothing a send promised. -/
theorem SendPost.returning {k₁ : Machine} {ep : ℕ} {km : KMessage} {via : Option ObjectRef}
    {x₁ : Task} (h : SendPost t ep km via k k₁) (hk₁ : k₁.current = some t) (hx₁ : k₁.tasks[t]? = some x₁)
    (caller : Caller) (result : Except KError Unit)
    (hres : ∀ e, result = .error e → e.refusal = false ∧ k₁.ipc = k.ipc) :
    ∃ k', k₁.returnSend caller result = .ok k' ∧ SendPost t ep km via k k' := by
  obtain ⟨k', hret, hown, htasks, htr, hgrew⟩ :=
    returnSend_spec caller result hk₁ hx₁ fun e he => (hres e he).1
  have hnet : k'.net = k₁.net :=
    Net.ext (by simp [net, hown.ipc]) hown.sameSched.phase htr
  refine ⟨k', hret, hown.sameSched.coherent h.coherent, ?_, hown.objects.trans h.objects, ?_,
    h.grew.trans (hgrew.mono fun ev hev => .inl hev.1), ?_, ?_, ?_⟩
  · rw [hnet]; exact h.wire
  · rw [hown.ipc]; exact h.ipc
  · rw [hown.ipc]
    cases result with
    | error e => exact .inl (hres e rfl).2
    | ok u =>
      refine h.declined.imp_right fun hdec => hdec.trans (hgrew.mono fun ev hev => ?_)
      by_contra hd
      obtain ⟨e, he⟩ := hev.2 (by simpa using hd)
      cases he
  · rw [htasks]; exact h.authority
  · rw [htasks]; exact h.mail

theorem sendOn_spec (hc : k.Coherent) (hq : k.net.Queued ringCap) (hk : k.current = some t)
    (hl : k.loaded = none) (e : Fin numEndpoints) (km : KMessage) (caller : Caller) :
    ∃ k', k.sendOn e km caller = .ok k' ∧ SendPost t e km caller.via k k' := by
  obtain ⟨x, hx, hrun, hmail, hfree⟩ := hc.current_task hk hl
  have heff := Endpoint.decideSend_effect t km (k.ipc e)
  cases hd : (k.ipc e).decideSend t km with
  | mk action e' =>
    rw [hd] at heff
    have hipc : Function.update k.ipc e e' =
        Function.update k.ipc e ((k.ipc e).decideSend t km).2 := by rw [hd]
    let ev : Event := .sendAccepted t e km caller.via
    have hsame := fun s => decided_sameSched (k := k) e e' ev s
    have hchans : ∀ ts s, (k.decided e e' ev ts s).net.chan =
        Function.update k.net.chan e e'.chan := fun ts s => net_chan_update
    simp only [sendOn, currentId_eq hk, ok_bind, hd]
    cases action with
    | deliver w =>
      obtain ⟨rest, hw, hchan⟩ : ∃ rest, (k.ipc e).chan.receivers = w :: rest ∧
        e'.chan = { (k.ipc e).chan with receivers := rest } := heff
      have hwp : k.net.phase w = .receiving e := (hq.receiving e w).mp (by simp [net, hw])
      obtain ⟨y, c, hy, hyb, hyctx⟩ := phase_receiving hwp
      let f : Task → Task := fun t => { t with mailbox := some km, state := .ready }
      have hpost : ∀ s, SendPost t e km caller.via k (k.decided e e' ev (k.tasks.modify w f) s) := by
        intro s
        let k₁ : Machine := k.decided e e' ev (k.tasks.modify w f) s
        have hphase : k₁.phase = Function.update k.net.phase w (.handed km) := by
          rw [phase_modify k₁ hy rfl rfl]
          simp [f, Task.phase, hyctx, Resume.phase, net]
        have hwire : Net.Step ringCap k.net k₁.net := by
          rw [show k₁.net = ⟨_, _, _⟩ from Net.ext (hchans _ s) hphase rfl, hchan]
          exact .handOver hfree hw
        refine ⟨?_, .inr hwire, rfl, .inr ⟨e, rfl, hipc⟩, .of_cons rfl (.inr ⟨e, rfl, rfl⟩),
          .inr (.of_cons rfl rfl),
          map_modify_of_eq _ _ fun t => rfl, ?_⟩
        · refine hc.modify (f := f) hy rfl rfl rfl rfl rfl ?_ (by simp [f, hyb])
          have hok := hc.ok w y hy
          simp only [Task.Ok, hyb, hyctx] at hok
          obtain ⟨r, hr, -, -, hfits⟩ := hok
          obtain rfl := Context.saved.inj hr
          exact ⟨_, hyctx, rfl, rfl, Task.fits_of_reach rfl hfits⟩
        · intro i y' hy' m hm
          change (k.tasks.modify w f)[i]? = some y' at hy'
          by_cases hi : w = i
          · subst hi
            obtain rfl : f y = y' := by simpa [hy] using hy'
            exact .inl (Option.some.inj hm).symm
          · exact .inr ⟨y', by simpa [hi] using hy', hm⟩
      have hx₁ : ∃ x₁, (k.tasks.modify w f)[t]? = some x₁ := by
        by_cases hi : w = t <;> simp [hi, hx]
      obtain ⟨x₁, hx₁⟩ := hx₁
      simp only [ne_eq, reduceCtorEq, not_false_eq_true, if_true]
      rw [deliver_eq km (by exact hy) hyb, ok_bind]
      exact (hpost _).returning (by exact hk) hx₁ caller _ (fun e he => by cases he)
    | buffered =>
      obtain ⟨hnone, hroom, hchan⟩ : (k.ipc e).chan.receivers = [] ∧
        (k.ipc e).chan.ring.length < ringCap ∧
        e'.chan = { (k.ipc e).chan with ring := (k.ipc e).chan.ring ++ [km] } := heff
      have hpost : ∀ s, SendPost t e km caller.via k (k.decided e e' ev k.tasks s) := by
        intro s
        have hwire : Net.Step ringCap k.net (k.decided e e' ev k.tasks s).net := by
          rw [show (k.decided e e' ev k.tasks s).net = ⟨_, _, _⟩ from
            Net.ext (hchans _ s) (hsame s).phase rfl, hchan]
          exact .buffer hfree hnone hroom
        exact ⟨(hsame s).coherent hc, .inr hwire, rfl, .inr ⟨e, rfl, hipc⟩,
          .of_cons rfl (.inr ⟨e, rfl, rfl⟩), .inr (.of_cons rfl rfl), rfl,
          fun i y hy m hm => .inr ⟨y, hy, hm⟩⟩
      simp only [ne_eq, reduceCtorEq, not_false_eq_true, if_true]
      exact (hpost _).returning hk hx caller _ (fun e he => by cases he)
    | block =>
      obtain ⟨hnone, hfull, hchan⟩ : (k.ipc e).chan.receivers = [] ∧
        (k.ipc e).chan.ring.length = ringCap ∧
        e'.chan = { (k.ipc e).chan with senders := (k.ipc e).chan.senders ++ [(t, km)] } := heff
      simp only [ne_eq, reduceCtorEq, not_false_eq_true, if_true]
      have hpark : ∀ s, ∃ k',
          (k.decided e e' ev k.tasks s).parkAndSwitch (.sendParked e caller) = .ok k' ∧
          SendPost t e km caller.via k k' := by
        intro s
        obtain ⟨k', hpark, hc', hswd, hnet⟩ :=
          park_spec (r := .sendParked e caller) ((hsame s).coherent hc) hk hl rfl hx trivial
        have hwire : Net.Step ringCap k.net k'.net := by
          rw [hnet, show (k.decided e e' ev k.tasks s).net = ⟨_, _, _⟩ from
            Net.ext (hchans _ s) (hsame s).phase rfl, hchan]
          exact .parkSend hfree hnone hfull
        refine ⟨k', hpark, hc', .inr hwire, hswd.objects, .inr ⟨e, rfl, hswd.ipc.trans hipc⟩,
          .of_cons hswd.log (.inr ⟨e, rfl, rfl⟩), .inr (.of_cons hswd.log rfl),
          map_authority_of_holdings hswd.holdings, ?_⟩
        intro i y' hy' m hm
        obtain ⟨y, hy, hhold⟩ := mailbox_of_holdings hswd.holdings hy'
        have hmb : y.mailbox = y'.mailbox := congrArg (fun p => p.2.2) hhold
        exact .inr ⟨y, hy, hmb.trans hm⟩
      exact hpark _
    | full =>
      obtain rfl : e' = k.ipc e := heff
      have hpost : ∀ s, SendPost t e km caller.via k
          { k with ipc := Function.update k.ipc e (k.ipc e), stats := s } := by
        intro s
        have hsame : SameSched k { k with ipc := Function.update k.ipc e (k.ipc e), stats := s } :=
          ⟨rfl, rfl, rfl, rfl, rfl⟩
        refine ⟨hsame.coherent hc, .inl ?_, rfl, .inl (Function.update_eq_self ..), .of_log rfl,
          .inl (Function.update_eq_self ..), rfl,
          fun i y hy m hm => .inr ⟨y, hy, hm⟩⟩
        exact Net.ext (by simp [net]) hsame.phase rfl
      simp only [ne_eq, not_true_eq_false, if_false, and_false]
      exact (hpost _).returning hk hx caller _
        (fun err he => by cases he; exact ⟨rfl, Function.update_eq_self ..⟩)

theorem send_spec (hc : k.Coherent) (hq : k.net.Queued ringCap) (hk : k.current = some t)
    (hl : k.loaded = none) (ep : ℕ) (km : KMessage) (caller : Caller) :
    ∃ k', k.send ep km caller = .ok k' ∧ SendPost t ep km caller.via k k' := by
  obtain ⟨x, hx, hrun, hmail, hfree⟩ := hc.current_task hk hl
  unfold send
  split
  · exact sendOn_spec hc hq hk hl _ km caller
  · have hpost : SendPost t ep km caller.via k k :=
      ⟨hc, .inl rfl, rfl, .inl rfl, .of_log rfl, .inl rfl, rfl,
        fun i y hy m hm => .inr ⟨y, hy, hm⟩⟩
    exact hpost.returning hk hx caller _ (fun e he => by cases he; exact ⟨rfl, rfl⟩)

/-! ### Receiving -/

/-- What a receive does: it takes nothing, or comes back with the message its
decision gave it. -/
structure RecvPost (heap : Heap) (t ep : ℕ) (caller : Caller) (x : Task) (k k' : Machine) :
    Prop where
  coherent : k'.Coherent
  wire : k'.net = k.net ∨ Net.Step ringCap k.net k'.net
  objects : k'.objects = k.objects
  ipc : k'.ipc = k.ipc ∨ ∃ e : Fin numEndpoints, e = ep ∧
    k'.ipc = Function.update k.ipc e ((k.ipc e).decideRecv t).2
  declined : k'.ipc = k.ipc ∨ Grew (fun ev => ev.declines = false) k k'
  others : ∀ i : ℕ, t ≠ i → k'.tasks[i]?.map Task.holdings = k.tasks[i]?.map Task.holdings
  own : ∃ x', k'.tasks[t]? = some x' ∧
    ((x'.holdings = x.holdings ∧ Grew (fun ev => ev.closing ∨ ∃ e : Fin numEndpoints, e = ep ∧
        ev = .recvAccepted t e caller.via) k k') ∨
      ∃ (e : Fin numEndpoints) (km : KMessage), e = ep ∧
        ((k.ipc e).decideRecv t).1.message = some km ∧
        Delivered heap t caller km x x' (.recvAccepted t e caller.via :: k.log) k'.log)

theorem map_holdings_modify {i w : ℕ} {f : Task → Task}
    (hf : ∀ y : Task, (f y).holdings = y.holdings) (l : List Task) :
    (l.modify w f)[i]?.map Task.holdings = l[i]?.map Task.holdings := by
  rw [← List.getElem?_map, ← List.getElem?_map, map_modify_of_eq _ _ hf]

/-- `k₁` is the machine once `t` holds `km` off endpoint `e`, before it goes back to its caller. -/
structure Fetched (t : ℕ) (e : Fin numEndpoints) (km : KMessage) (caller : Caller)
    (k k₁ : Machine) : Prop where
  current : k₁.current = some t
  task : k₁.tasks[t]? = k.tasks[t]?
  coherent : k₁.Coherent
  wire : Net.Step ringCap k.net { k₁.net with history := .got t km :: k₁.net.history }
  objects : k₁.objects = k.objects
  log : k₁.log = .recvAccepted t e caller.via :: k.log
  ipc : k₁.ipc = Function.update k.ipc e ((k.ipc e).decideRecv t).2
  others : ∀ i : ℕ, t ≠ i → k₁.tasks[i]?.map Task.holdings = k.tasks[i]?.map Task.holdings

/-- A receive that finds a message takes it, and lets the first waiting sender deposit its own. -/
theorem recvOn_fetched (heap : Heap) (hc : k.Coherent) (hq : k.net.Queued ringCap)
    (hk : k.current = some t) (hl : k.loaded = none) (e : Fin numEndpoints) (caller : Caller)
    {km : KMessage} (hmsg : ((k.ipc e).decideRecv t).1.message = some km) :
    ∃ k₁, k.recvOn heap e caller = k₁.returnRecv heap caller (.ok km) ∧
      Fetched t e km caller k k₁ := by
  obtain ⟨x, hx, hrun, hmail, hfree⟩ := hc.current_task hk hl
  have heff := Endpoint.decideRecv_effect t (k.ipc e)
  cases hd : (k.ipc e).decideRecv t with
  | mk action e' =>
    rw [hd] at heff hmsg
    have he' : Function.update k.ipc e e' =
        Function.update k.ipc e ((k.ipc e).decideRecv t).2 := by rw [hd]
    let ev : Event := .recvAccepted t e caller.via
    have hsame := fun s => decided_sameSched (k := k) e e' ev s
    have hchans : ∀ ts s, (k.decided e e' ev ts s).net.chan =
        Function.update k.net.chan e e'.chan := fun ts s => net_chan_update
    simp only [recvOn, currentId_eq hk, ok_bind, hd]
    cases action with
    | got m =>
      obtain rfl : m = km := Option.some.inj hmsg
      obtain ⟨rest, hring, hsend, hchan⟩ : ∃ rest, (k.ipc e).chan.ring = m :: rest ∧
        (k.ipc e).chan.senders = [] ∧ e'.chan = { (k.ipc e).chan with ring := rest } := heff
      have hwire : ∀ s, Net.Step ringCap k.net { (k.decided e e' ev k.tasks s).net with
          history := .got t m :: (k.decided e e' ev k.tasks s).net.history } := by
        intro s
        rw [show (k.decided e e' ev k.tasks s).net = ⟨_, _, _⟩ from
          Net.ext (hchans _ s) (hsame s).phase rfl, hchan]
        exact .take hfree hring hsend
      simp only [ne_eq, reduceCtorEq, not_false_eq_true, if_true]
      exact ⟨k.decided e e' ev k.tasks _, rfl, hk, rfl, (hsame _).coherent hc, hwire _, rfl, rfl,
        he', fun i hi => rfl⟩
    | wakeSender m w =>
      obtain rfl : m = km := Option.some.inj hmsg
      obtain ⟨rest, skm, ss, hring, hsend, hchan⟩ : ∃ rest skm ss,
        (k.ipc e).chan.ring = m :: rest ∧ (k.ipc e).chan.senders = (w, skm) :: ss ∧
        e'.chan = { (k.ipc e).chan with ring := rest ++ [skm], senders := ss } := heff
      have hwp : k.net.phase w = .sending e := (hq.sending e w).mp (by simp [net, hsend])
      obtain ⟨y, c, hy, hyb, hyctx⟩ := phase_sending hwp
      have hmy : y.mailbox = none := by
        have hok := hc.ok w y hy
        simp only [Task.Ok, hyb] at hok
        exact hok.choose_spec.2.2.1
      let f : Task → Task := fun t => { t with state := .ready }
      have hfree' : ∀ s, (k.decided e e' ev (k.tasks.modify w f) s).Coherent ∧
          (k.decided e e' ev (k.tasks.modify w f) s).phase =
            Function.update k.net.phase w .released := by
        intro s
        constructor
        · refine hc.modify (f := f) hy rfl rfl rfl rfl rfl ?_ (by simp [f, hyb])
          exact ⟨_, hyctx, rfl, by simp [hmy, Resume.awaits, f], trivial⟩
        · rw [phase_modify (k.decided e e' ev (k.tasks.modify w f) s) hy rfl rfl]
          simp [f, Task.phase, hyctx, Resume.phase, net]
      have hwire : ∀ s, Net.Step ringCap k.net { (k.decided e e' ev (k.tasks.modify w f) s).net with
          history := .got t m :: (k.decided e e' ev (k.tasks.modify w f) s).net.history } := by
        intro s
        rw [show (k.decided e e' ev (k.tasks.modify w f) s).net = ⟨_, _, _⟩ from
          Net.ext (hchans _ s) (hfree' s).2 rfl, hchan]
        exact .takeAndWake hfree hring hsend
      have hne : w ≠ t := by
        intro hwt
        rw [hwt, show k.net.phase t = .free from hfree] at hwp
        cases hwp
      simp only [ne_eq, reduceCtorEq, not_false_eq_true, if_true]
      rw [unblock_eq (by exact hy) hyb, ok_bind]
      exact ⟨k.decided e e' ev (k.tasks.modify w f) _, rfl, hk, List.getElem?_modify_ne _ _ hne,
        (hfree' _).1, hwire _, rfl, rfl, he',
        fun i hi => map_holdings_modify (f := f) (fun y => rfl) k.tasks⟩
    | block => cases hmsg
    | full => cases hmsg

/-- A receive that comes back at once: the message goes to the caller. -/
theorem RecvPost.returning {heap : Heap} {e : Fin numEndpoints} {km : KMessage} {caller : Caller}
    {k₁ : Machine} (hx : k.tasks[t]? = some x) (hhost : x.Hosts caller)
    (hmsg : ((k.ipc e).decideRecv t).1.message = some km) (h : Fetched t e km caller k k₁) :
    ∃ k', k₁.returnRecv heap caller (.ok km) = .ok k' ∧ RecvPost heap t e caller x k k' := by
  obtain ⟨k', x', hret, hown, hx', hdel⟩ :=
    returnRecv_spec heap caller km h.current (h.task.trans hx) hhost
  have hnet : k'.net = { k₁.net with history := .got t km :: k₁.net.history } :=
    Net.ext (by simp [net, hown.ipc]) hown.sameSched.phase hdel.traffic
  refine ⟨k', hret, hown.sameSched.coherent h.coherent, .inr (hnet ▸ h.wire),
    hown.objects.trans h.objects, .inr ⟨e, rfl, hown.ipc.trans h.ipc⟩,
    .inr (.trans (.of_cons h.log rfl : Grew (fun ev => ev.declines = false) k k₁)
      (hdel.grew.mono fun ev hev => hev.2)), ?_, x', hx',
    .inr ⟨e, km, rfl, hmsg, h.log ▸ hdel⟩⟩
  intro i hi
  rw [hown.getElem?_ne hi]
  exact h.others i hi

/-- A receive that is turned down. -/
theorem RecvPost.failing {heap : Heap} {ep : ℕ} (k₁ : Machine) (hc : k.Coherent)
    (hk : k.current = some t) (hx : k.tasks[t]? = some x) (hipc : k₁.ipc = k.ipc)
    (hk₁ : k₁ = { k with ipc := k₁.ipc }) (caller : Caller) {err : KError}
    (herr : err.refusal = false) :
    ∃ k', k₁.returnRecv heap caller (.error err) = .ok k' ∧ RecvPost heap t ep caller x k k' := by
  obtain rfl : k₁ = k := by rw [hk₁, hipc]
  obtain ⟨k', hret, hown, htasks, htr, hgrew⟩ := returnRecv_error heap caller hk hx herr
  refine ⟨k', hret, hown.sameSched.coherent hc, .inl ?_, hown.objects, .inl hown.ipc,
    .inl hown.ipc, fun i hi => by rw [htasks], x, by rw [htasks, hx], .inl ⟨rfl, hgrew.mono fun ev => .inl⟩⟩
  exact Net.ext (by simp [net, hown.ipc]) hown.sameSched.phase htr

/-- A receive that finds nothing, with room in the queue, parks the caller. -/
theorem recvOn_parks (heap : Heap) (hc : k.Coherent) (hk : k.current = some t)
    (hx : k.tasks[t]? = some x) (hl : k.loaded = none) (e : Fin numEndpoints) {caller : Caller}
    (hhost : x.Hosts caller) (hblock : ((k.ipc e).decideRecv t).1 = .block) :
    ∃ k', k.recvOn heap e caller = .ok k' ∧ RecvPost heap t e caller x k k' ∧
      k'.log = .recvAccepted t e caller.via :: k.log := by
  obtain ⟨y, hy, hrun, hmail, hfree⟩ := hc.current_task hk hl
  have heff := Endpoint.decideRecv_effect t (k.ipc e)
  rw [hblock] at heff
  obtain ⟨hring, hchan⟩ : (k.ipc e).chan.ring = [] ∧ ((k.ipc e).decideRecv t).2.chan =
    { (k.ipc e).chan with receivers := (k.ipc e).chan.receivers ++ [t] } := heff
  let e' : Endpoint := ((k.ipc e).decideRecv t).2
  let ev : Event := .recvAccepted t e caller.via
  have hsame := fun s => decided_sameSched (k := k) e e' ev s
  have hpark : ∀ s, ∃ k', (k.decided e e' ev k.tasks s).parkAndSwitch (.recvParked e caller) =
      .ok k' ∧ RecvPost heap t e caller x k k' ∧ k'.log = ev :: k.log := by
    intro s
    obtain ⟨k', hpark, hc', hswd, hnet⟩ :=
      park_spec (r := .recvParked e caller) ((hsame s).coherent hc) hk hl rfl hx hhost
    have hwire : Net.Step ringCap k.net k'.net := by
      rw [hnet, show (k.decided e e' ev k.tasks s).net = ⟨_, _, _⟩ from
        Net.ext net_chan_update (hsame s).phase rfl, hchan]
      exact .parkRecv hfree hring
    have hhold : ∀ i : ℕ, k'.tasks[i]?.map Task.holdings = k.tasks[i]?.map Task.holdings := by
      intro i
      rw [← List.getElem?_map, hswd.holdings, List.getElem?_map]
      rfl
    obtain ⟨x', hx', hxh⟩ : ∃ x', k'.tasks[t]? = some x' ∧ x'.holdings = x.holdings := by
      have := hhold t
      rw [hx] at this
      exact Option.map_eq_some_iff.mp this
    exact ⟨k', hpark, ⟨hc', .inr hwire, hswd.objects, .inr ⟨e, rfl, hswd.ipc⟩,
      .inr (.of_cons hswd.log rfl), fun i _ => hhold i,
      x', hx', .inl ⟨hxh, .of_cons hswd.log (.inr ⟨e, rfl, rfl⟩)⟩⟩, hswd.log⟩
  simp only [recvOn, currentId_eq hk, ok_bind, hblock, ne_eq, reduceCtorEq, not_false_eq_true,
    if_true]
  exact hpark _

/-- A receive that finds nothing and no room in the queue is turned down. -/
theorem recvOn_full (heap : Heap) (hk : k.current = some t) (e : Fin numEndpoints) (caller : Caller)
    (hfull : ((k.ipc e).decideRecv t).1 = .full) :
    k.recvOn heap e caller = k.returnRecv heap caller (.error .outOfResources) := by
  have heff := Endpoint.decideRecv_effect t (k.ipc e)
  rw [hfull] at heff
  have hsame : ((k.ipc e).decideRecv t).2 = k.ipc e := heff
  have hipc : Function.update k.ipc e (k.ipc e) = k.ipc := Function.update_eq_self ..
  simp only [recvOn, currentId_eq hk, ok_bind, hfull, hsame, ne_eq, not_true_eq_false, if_false,
    hipc]

theorem recvOn_spec (heap : Heap) (hc : k.Coherent) (hq : k.net.Queued ringCap)
    (hk : k.current = some t) (hx : k.tasks[t]? = some x) (hl : k.loaded = none)
    (e : Fin numEndpoints) {caller : Caller} (hhost : x.Hosts caller) :
    ∃ k', k.recvOn heap e caller = .ok k' ∧ RecvPost heap t e caller x k k' := by
  cases hd : ((k.ipc e).decideRecv t).1 with
  | got km =>
    have hmsg : ((k.ipc e).decideRecv t).1.message = some km := by rw [hd]; rfl
    obtain ⟨k₁, heq, hf⟩ := recvOn_fetched heap hc hq hk hl e caller hmsg
    rw [heq]
    exact RecvPost.returning hx hhost hmsg hf
  | wakeSender km w =>
    have hmsg : ((k.ipc e).decideRecv t).1.message = some km := by rw [hd]; rfl
    obtain ⟨k₁, heq, hf⟩ := recvOn_fetched heap hc hq hk hl e caller hmsg
    rw [heq]
    exact RecvPost.returning hx hhost hmsg hf
  | block =>
    obtain ⟨k', heq, hpost, -⟩ := recvOn_parks heap hc hk hx hl e hhost hd
    exact ⟨k', heq, hpost⟩
  | full =>
    rw [recvOn_full heap hk e caller hd]
    exact RecvPost.failing k hc hk hx rfl rfl caller rfl

theorem recv_spec (heap : Heap) (hc : k.Coherent) (hq : k.net.Queued ringCap)
    (hk : k.current = some t) (hx : k.tasks[t]? = some x) (hl : k.loaded = none) (ep : ℕ)
    (caller : Caller) (hhost : x.Hosts caller) :
    ∃ k', k.recv heap ep caller = .ok k' ∧ RecvPost heap t ep caller x k k' := by
  unfold recv
  split
  · exact recvOn_spec heap hc hq hk hx hl _ hhost
  · exact RecvPost.failing k hc hk hx rfl rfl caller rfl

end Machine

end StarOs.Kernel
