import StarOs.Kernel.Mediation
import Mathlib.Logic.Relation

/-! What a `Recv` that answers an error has cost. The buffer is checked before the call can
block, so that no message is taken for a caller it cannot be written to; the room for a
capability is asked for only once its message is taken. -/

namespace StarOs.Kernel

open Library

/-- Nobody waits in the parked receive but the syscall with these registers. -/
def Resume.receives (frame : Frame) : Resume → Prop
  | .recvParked _ (.ring3 f _ _) => f = frame
  | _ => False

theorem Resume.receives.parked {frame : Frame} {r : Resume} (h : r.receives frame) :
    ∃ ep corrupt via, r = .recvParked ep (.ring3 frame corrupt via) := by
  cases r with
  | recvParked ep caller =>
    cases caller with
    | thread => exact h.elim
    | ring3 f corrupt via => exact ⟨ep, corrupt, via, by rw [show f = frame from h]⟩
  | _ => exact h.elim

namespace Machine

variable {heap : Heap} {k k₀ k' : Machine} {t : ℕ} {x : Task} {frame : Frame} {km : KMessage}

/-- Task `t` stays parked, or waits for its turn to come back, across a step. -/
def Waits (t : ℕ) (frame : Frame) (k k' : Machine) : Prop :=
  (∃ x r, k.tasks[t]? = some x ∧ x.ctx = .saved r ∧ r.receives frame) ∧ ∃ l, Move k l k'

/-- A `Recv` that the current task `t` makes in `k₀` with the registers of `frame`. Its last
stretch leads from `k` to `k'` on the heap it finds: the call itself, or where it parked,
what it does once it is loaded again. -/
inductive RecvCall (heap : Heap) (t : ℕ) (frame : Frame) (k₀ : Machine) : Machine → Machine → Prop
  | called {k' : Machine} (hmove : Move k₀ (heap, .syscall frame) k') :
      RecvCall heap t frame k₀ k₀ k'
  | woken {heap₀ : Heap} {k₁ k k' : Machine} {r : Resume}
      (hcall : Move k₀ (heap₀, .syscall frame) k₁)
      (hwait : Relation.ReflTransGen (Waits t frame) k₁ k) (hcur : k.current = some t)
      (hl : k.loaded = some r) (hr : r.receives frame) (hmove : Move k (heap, .resume) k') :
      RecvCall heap t frame k₀ k k'

/-- The call was answered with an error in its last stretch. -/
def Fails (t : ℕ) (k k' : Machine) : Prop :=
  ∃ e rip evs, k'.log = .sysret t (.error e) rip :: (evs ++ k.log)

/-- No message was taken from a ring, a queue or a mailbox and no parked task was woken from
`k` to `k'`, and the caller's table is what it was in `k₀`. -/
structure Unspent (t : ℕ) (k₀ k k' : Machine) : Prop where
  rings : ∀ ep, (k'.ipc ep).chan.ring = (k.ipc ep).chan.ring
  senders : ∀ ep, (k'.ipc ep).chan.senders = (k.ipc ep).chan.senders
  mail : ∀ i : ℕ, k'.tasks[i]?.map Task.mailbox = k.tasks[i]?.map Task.mailbox
  asleep : ∀ (i : ℕ) (y : Task), k.tasks[i]? = some y → y.state = .blocked →
    ∃ y', k'.tasks[i]? = some y' ∧ y'.state = .blocked
  caps : k'.tasks[t]?.map Task.caps = k₀.tasks[t]?.map Task.caps

/-- The message the stretch from `k` would take: what `t` wakes up with, or the oldest in the
ring its handle gives it a right to, if the buffer passes the check. -/
def Offered (t : ℕ) (frame : Frame) (k : Machine) (km : KMessage) : Prop :=
  ∃ x, k.tasks[t]? = some x ∧
    if k.loaded.isSome then x.mailbox = some km
    else x.Writable frame.rsi ∧ ∃ (ep : Fin numEndpoints) (obj : ObjectRef),
      Authorised x k.objects frame.rdi.toUInt32 false ep obj ∧
        (k.ipc ep).chan.ring.head? = some km

/-- The message carries a capability, the table has no empty slot for it, and the heap does
not let the table grow. -/
def NoRoom (heap : Heap) (caps : CapTable) (km : KMessage) : Prop :=
  km.cap.isSome ∧ (∀ slot ∈ caps.drop 1, slot.isSome) ∧ heap.serves (caps.length + 1) = false

theorem starved_iff {caps : CapTable} : Starved heap km caps ↔ NoRoom heap caps km := by
  simp only [Starved, CapTable.install_eq_none_iff, NoRoom]
  constructor
  · rintro ⟨c, hc, hfull⟩
    exact ⟨Option.isSome_iff_exists.mpr ⟨c, hc⟩, hfull⟩
  · rintro ⟨hc, hfull⟩
    obtain ⟨c, hc⟩ := Option.isSome_iff_exists.mp hc
    exact ⟨c, hc, hfull⟩

theorem Unspent.of_rewrite {mem : UInt64 → UInt64} (hx : k.tasks[t]? = some x)
    (htasks : k'.tasks = k.tasks.modify t (Task.rewrite x.caps mem)) (hipc : k'.ipc = k.ipc) :
    Unspent t k k k' := by
  have hget : ∀ i : ℕ, k'.tasks[i]? =
      (k.tasks[i]?).map fun y => if t = i then y.rewrite x.caps mem else y := by
    intro i
    rw [htasks, List.getElem?_modify]
    rfl
  constructor
  · exact fun ep => by rw [hipc]
  · exact fun ep => by rw [hipc]
  · intro i
    rw [hget, Option.map_map]
    refine congrArg (fun f => Option.map f k.tasks[i]?) (funext fun y => ?_)
    by_cases hi : t = i <;> simp [hi, Task.rewrite]
  · intro i y hy hb
    refine ⟨_, by rw [hget, hy]; rfl, ?_⟩
    by_cases hi : t = i <;> simp [hi, Task.rewrite, hb]
  · rw [hget, hx, Option.map_some, if_pos rfl]
    rfl

theorem Offered.unique {m : KMessage} (h : Offered t frame k km) (h' : Offered t frame k m) :
    km = m := by
  obtain ⟨x, hx, hif⟩ := h
  obtain ⟨y, hy, hif'⟩ := h'
  obtain rfl : x = y := Option.some.inj (hx.symm.trans hy)
  split at hif
  · next hl =>
    rw [if_pos hl] at hif'
    exact Option.some.inj (hif.symm.trans hif')
  · next hl =>
    rw [if_neg hl] at hif'
    obtain ⟨-, ep, obj, hauth, hhead⟩ := hif
    obtain ⟨-, ep', obj', hauth', hhead'⟩ := hif'
    obtain rfl : ep = ep' := Fin.ext (hauth.unique hauth')
    exact Option.some.inj (hhead.symm.trans hhead')

/-! ### The last stretch -/

/-- How the last stretch of a `Recv` ends: with nothing taken, parked, or with the message
offered, which the caller has or which is lost. -/
inductive RecvEnd (heap : Heap) (t : ℕ) (frame : Frame) (x : Task) (k k' : Machine) : Prop
  | untouched (mem : UInt64 → UInt64)
      (htasks : k'.tasks = k.tasks.modify t (Task.rewrite x.caps mem)) (hipc : k'.ipc = k.ipc)
      (hno : ∀ km, ¬ Offered t frame k km)
  | parked (ep : Fin numEndpoints) (via : Option ObjectRef)
      (hlog : k'.log = .recvAccepted t ep via :: k.log) (hno : ∀ km, ¬ Offered t frame k km)
  | taken (km : KMessage) (hoffer : Offered t frame k km)
      (hspent : (∃ ep, (k'.ipc ep).chan.ring ≠ (k.ipc ep).chan.ring ∨
          (k'.ipc ep).chan.senders ≠ (k.ipc ep).chan.senders) ∨
        k'.tasks[t]?.map Task.mailbox ≠ k.tasks[t]?.map Task.mailbox)
      (rip : UInt64) (evs : List Event)
      (hback : (NoRoom heap x.caps km ∧
          k'.log = .sysret t (.error .outOfResources) rip :: (evs ++ k.log)) ∨
        (¬ NoRoom heap x.caps km ∧ k'.log = .sysret t (.ok 0) rip :: (evs ++ k.log)))

/-- A message delivered to ring 3 is answered with an error exactly where there is no room
for what it carries. -/
theorem Delivered.answer {corrupt : Bool} {via : ObjectRef} {y x' : Task}
    {pre log log' : List Event} (hcaps : y.caps = x.caps)
    (h : Delivered heap t (.ring3 frame corrupt via) km y x' (pre ++ log) log') :
    ∃ rip evs, (NoRoom heap x.caps km ∧
        log' = .sysret t (.error .outOfResources) rip :: (evs ++ log)) ∨
      (¬ NoRoom heap x.caps km ∧ log' = .sysret t (.ok 0) rip :: (evs ++ log)) := by
  obtain ⟨rip, ⟨hd, caps, hgrown, -, hlog⟩ | ⟨hstarved, -, hlog⟩⟩ := h
  · refine ⟨rip, .recvReturned t (.ok km) :: pre, .inr ⟨?_, hlog⟩⟩
    rw [← starved_iff, ← hcaps]
    rintro ⟨c, hc, hnone⟩
    simp only [Grown, hc, hnone] at hgrown
    cases hgrown
  · refine ⟨rip, .recvReturned t (.ok km) :: pre, .inl ⟨?_, hlog⟩⟩
    rw [← starved_iff, ← hcaps]
    exact hstarved

/-- A call that goes straight back, whatever it counted, where no message has been offered. -/
theorem sysret_recvEnd (heap : Heap) (frame : Frame) (corrupt : Bool) (rc : Rc) (cpu : Cpu)
    (s : Stats) (hk : k.current = some t) (hx : k.tasks[t]? = some x)
    (hno : ∀ km, ¬ Offered t frame k km) :
    ∃ k', ({ k with cpu := cpu, stats := s } : Machine).sysret frame corrupt rc = .ok k' ∧
      RecvEnd heap t frame x k k' := by
  obtain ⟨k', hret, hown, htasks, -⟩ :=
    sysret_own (k := { k with cpu := cpu, stats := s }) frame corrupt rc hk hx
  have hself : k.tasks = k.tasks.modify t (Task.rewrite x.caps x.mem) :=
    (modify_self hx x.rewrite_self).symm
  exact ⟨k', hret, .untouched x.mem (htasks.trans hself) hown.ipc hno⟩

/-- The call, from where the syscall reaches `sys_recv`. -/
theorem sysRecv_ends (heap : Heap) (frame : Frame) (corrupt : Bool) (hc : k.Coherent)
    (hq : k.net.Queued ringCap)
    (hk : k.current = some t) (hx : k.tasks[t]? = some x) (hl : k.loaded = none) :
    ∃ k', k.sysRecv heap frame corrupt = .ok k' ∧ RecvEnd heap t frame x k k' := by
  have hoffer : ∀ km, Offered t frame k km → x.Writable frame.rsi ∧
      ∃ (ep : Fin numEndpoints) (obj : ObjectRef),
        Authorised x k.objects frame.rdi.toUInt32 false ep obj ∧
          (k.ipc ep).chan.ring.head? = some km := by
    rintro km ⟨y, hy, hif⟩
    obtain rfl : x = y := Option.some.inj (hx.symm.trans hy)
    rwa [hl, if_neg (by simp)] at hif
  unfold sysRecv
  rcases endpointFor_spec frame.rdi.toUInt32 false hk hx with ⟨e, he⟩ | ⟨ep, obj, he, hauth⟩
  · simp only [he, ok_bind]
    refine sysret_recvEnd heap frame corrupt _ _ _ hk hx fun km ho => ?_
    obtain ⟨-, ep, obj, hauth, -⟩ := hoffer km ho
    rw [endpointFor_of_authorised hk hx hauth] at he
    cases Except.ok.inj he
  · simp only [he, ok_bind]
    by_cases hw : x.Writable frame.rsi
    · rw [writeUserMsg_of_writable _ hk hx hw]
      let mem := (Message.new 0).write x.mem frame.rsi
      let k₁ := k.rewriteTask t x.caps mem
      have hown : Own t k k₁ := own_rewriteTask x.caps mem
      have hc₁ : k₁.Coherent := hown.sameSched.coherent hc
      have hq₁ : k₁.net.Queued ringCap := by
        rw [show k₁.net = k.net from Net.ext rfl hown.sameSched.phase rfl]
        exact hq
      have hx₁ : k₁.tasks[t]? = some (x.rewrite x.caps mem) := rewriteTask_getElem? x.caps mem hx
      have hhost : (x.rewrite x.caps mem).Hosts (.ring3 frame corrupt obj) := by
        simpa [Task.Hosts, Task.Writable, Task.reach, Task.rewrite, Function.comp_def] using hw
      -- the endpoint named is the one an offer would come from
      have hnone : (∀ h : ep < numEndpoints, (k.ipc ⟨ep, h⟩).chan.ring.head? = none) →
          ∀ km, ¬ Offered t frame k km := by
        intro hempty km ho
        obtain ⟨-, ep', obj', hauth', hhead⟩ := hoffer km ho
        obtain rfl : ep = ep' := hauth.unique hauth'
        rw [hempty ep'.isLt] at hhead
        cases hhead
      show ∃ k', k₁.recv heap ep (.ring3 frame corrupt obj) = .ok k' ∧ RecvEnd heap t frame x k k'
      have hfail : ∀ err : KError, err.refusal = false → (∀ km, ¬ Offered t frame k km) →
          ∃ k', k₁.returnRecv heap (.ring3 frame corrupt obj) (.error err) = .ok k' ∧
            RecvEnd heap t frame x k k' := by
        intro err herr hno
        obtain ⟨k', hret, hown', htasks, -, -⟩ :=
          returnRecv_error (k := k₁) heap (.ring3 frame corrupt obj) hk hx₁ herr
        exact ⟨k', hret, .untouched mem htasks hown'.ipc hno⟩
      by_cases hlt : ep < numEndpoints
      · let e : Fin numEndpoints := ⟨ep, hlt⟩
        have hmsg := Endpoint.decideRecv_message t (k.ipc e)
        rw [recv, dif_pos hlt]
        show ∃ k', k₁.recvOn heap e (.ring3 frame corrupt obj) = .ok k' ∧
          RecvEnd heap t frame x k k'
        cases hhead : (k.ipc e).chan.ring.head? with
        | some km =>
          obtain ⟨k₂, heq, hf⟩ := recvOn_fetched (k := k₁) heap hc₁ hq₁ hk hl e
            (.ring3 frame corrupt obj) (hmsg.trans hhead)
          obtain ⟨k', x', hret, hown', hx', hdel⟩ := returnRecv_spec heap
            (.ring3 frame corrupt obj) km hf.current (hf.task.trans hx₁) hhost
          rw [hf.log] at hdel
          obtain ⟨rip, evs, hback⟩ := Delivered.answer rfl
            (show Delivered heap t _ km _ x' ([_] ++ k.log) k'.log from hdel)
          refine ⟨k', heq.trans hret, .taken km ?_ (.inl ⟨e, ?_⟩) rip evs hback⟩
          · refine ⟨x, hx, ?_⟩
            rw [hl, if_neg (by simp)]
            exact ⟨hw, e, obj, hauth, hhead⟩
          · rw [hown'.ipc, hf.ipc, Function.update_self]
            exact Endpoint.decideRecv_spends (hmsg.trans hhead)
        | none =>
          have hno := hnone fun _ => hhead
          cases hd : ((k.ipc e).decideRecv t).1 with
          | got m => rw [hd, hhead] at hmsg; cases hmsg
          | wakeSender m w => rw [hd, hhead] at hmsg; cases hmsg
          | block =>
            obtain ⟨k', heq, -, hlog⟩ := recvOn_parks (k := k₁) heap hc₁ hk hx₁ hl e hhost hd
            exact ⟨k', heq, .parked e _ hlog hno⟩
          | full =>
            rw [recvOn_full (k := k₁) heap hk e (.ring3 frame corrupt obj) hd]
            exact hfail _ rfl hno
      · rw [recv, dif_neg hlt]
        exact hfail _ rfl (hnone fun h => absurd h hlt)
    · rw [writeUserMsg_of_not_writable _ hk hx hw]
      exact sysret_recvEnd heap frame corrupt _ _ _ hk hx fun km ho => hw (hoffer km ho).1

/-- Bookkeeping before the call is served does not change how it ends. -/
theorem RecvEnd.of_counted {cpu : Cpu} {s : Stats} {arm : Bool}
    (h : RecvEnd heap t frame x { k with cpu := cpu, stats := s, armNoncanonical := arm } k') :
    RecvEnd heap t frame x k k' := by
  cases h with
  | untouched mem htasks hipc hno => exact .untouched mem htasks hipc hno
  | parked ep via hlog hno => exact .parked ep via hlog hno
  | taken km hoffer hspent rip evs hback => exact .taken km hoffer hspent rip evs hback

theorem onSyscall_recv (heap : Heap) (hcall : Syscall.fromRaw frame.rax = some .recv) :
    ∃ cpu s, k.onSyscall heap frame =
      sysRecv heap frame k.armNoncanonical { k with
        cpu := cpu, stats := s, armNoncanonical := false } := by
  simp only [onSyscall, hcall]
  exact ⟨_, _, rfl⟩

/-- The call's last stretch, from the syscall itself or from where it was loaded again. -/
theorem RecvCall.ends (hr : Reachable k₀) (hk : k₀.current = some t)
    (hcall : Syscall.fromRaw frame.rax = some .recv) (h : RecvCall heap t frame k₀ k k') :
    ∃ x, k.tasks[t]? = some x ∧ RecvEnd heap t frame x k k' ∧
      (k = k₀ ∨ ∃ km, Offered t frame k km) := by
  cases h with
  | called hmove =>
    obtain ⟨hc, hq, -⟩ := hr.sound
    obtain ⟨hl, -⟩ := hmove.1
    obtain ⟨x, hx, -⟩ := hc.current_task hk hl
    obtain ⟨cpu, s, hserve⟩ := onSyscall_recv (k := k) heap hcall
    let k₁ : Machine := { k with cpu := cpu, stats := s, armNoncanonical := false }
    have hsame : SameSched k k₁ := ⟨rfl, rfl, rfl, rfl, rfl⟩
    obtain ⟨k₂, heq, hend⟩ := sysRecv_ends (k := k₁) heap frame k.armNoncanonical
      (hsame.coherent hc) hq hk hx hl
    obtain rfl : k₂ = k' := Except.ok.inj (heq.symm.trans (hserve.symm.trans hmove.2))
    exact ⟨x, hx, hend.of_counted, .inl rfl⟩
  | woken hfirst hwait hcur hl hrecv hmove =>
    have hreach : Reachable k := by
      have hfirst' := hr.move hfirst
      clear hcur hl hmove
      induction hwait with
      | refl => exact hfirst'
      | tail _ hstep ih => exact ih.move hstep.2.choose_spec
    obtain ⟨hc, -, -⟩ := hreach.sound
    obtain ⟨x, hx⟩ : ∃ x, k.tasks[t]? = some x :=
      ⟨_, List.getElem?_eq_getElem (hc.current t hcur)⟩
    obtain ⟨ep, corrupt, via, rfl⟩ := hrecv.parked
    obtain ⟨km, k₂, x', hmail, hres, -, -, -, -, -, hx', hempty, hdel⟩ :=
      resume_recvParked heap hc hl hcur hx
    obtain rfl : k₂ = k' := Except.ok.inj (hres.symm.trans hmove.2)
    let y : Task := { x with mailbox := none }
    have hdel' : Delivered heap t (.ring3 frame corrupt via) km y x' ([] ++ k.log) k₂.log := hdel
    obtain ⟨rip, evs, hback⟩ := hdel'.answer (show y.caps = x.caps from rfl)
    have hoffer : Offered t frame k km := by
      refine ⟨x, hx, ?_⟩
      rwa [hl, Option.isSome_some, if_pos rfl]
    refine ⟨x, hx, .taken km hoffer (.inr ?_) rip evs hback, .inr ⟨km, hoffer⟩⟩
    rw [hx', hx, Option.map_some, Option.map_some, hempty, hmail]
    exact fun h => Option.some_ne_none _ (Option.some.inj h).symm

/-- A `Recv` that fails has taken no message, woken nobody and left its caller's table alone,
exactly if it was not made to give up for want of room a message carrying a capability. -/
theorem failed_recv_unspent_iff (hr : Reachable k₀) (hk : k₀.current = some t)
    (hcall : Syscall.fromRaw frame.rax = some .recv) (h : RecvCall heap t frame k₀ k k') :
    (Fails t k k' → Unspent t k₀ k k') ↔
      ∀ x km, k.tasks[t]? = some x → Offered t frame k km → ¬ NoRoom heap x.caps km := by
  obtain ⟨x, hx, hend, hfrom⟩ := h.ends hr hk hcall
  constructor
  · intro hlaw y km hy hoffer hroom
    obtain rfl : x = y := Option.some.inj (hx.symm.trans hy)
    cases hend with
    | untouched mem htasks hipc hno => exact hno km hoffer
    | parked ep via hlog hno => exact hno km hoffer
    | taken m hoffer' hspent rip evs hback =>
      obtain rfl : km = m := hoffer.unique hoffer'
      obtain ⟨-, hlog⟩ | ⟨hnot, -⟩ := hback
      · have hun := hlaw ⟨_, rip, evs, hlog⟩
        obtain ⟨ep, hring | hsend⟩ | hmail := hspent
        · exact hring (hun.rings ep)
        · exact hsend (hun.senders ep)
        · exact hmail (hun.mail t)
      · exact hnot hroom
  · rintro hroom ⟨e, rip, evs, hlog⟩
    cases hend with
    | untouched mem htasks hipc hno =>
      obtain rfl | ⟨km, hoffer⟩ := hfrom
      · exact Unspent.of_rewrite hx htasks hipc
      · exact absurd hoffer (hno km)
    | parked ep via hlog' hno =>
      rw [hlog'] at hlog
      cases hlog
    | taken m hoffer hspent rip' evs' hback =>
      obtain ⟨hnot, -⟩ | ⟨-, hlog'⟩ := hback
      · exact absurd hnot (hroom x m hx hoffer)
      · rw [hlog'] at hlog
        cases hlog

/-- Task 0's table is as large as the heap lets it grow, and a message carrying a capability
waits in the ring it may receive from. -/
def laden : List Act :=
  [.create (.endpoint 2),
    .spawn (some 0x1000) (some flat) (List.replicate 7 (.endpoint ⟨0, 0⟩ false true)),
    .spawn (some 0x2000) none [], .start, .resume, .syscall ⟨0, 0, 0, 0⟩, .resume,
    .send 2 ⟨Message.new 0, some (.endpoint ⟨0, 0⟩ true true)⟩, .timer, .resume]

/-- The `Recv` answers an error, and the ring is empty. -/
theorem recv_loses_message : Reachable (after laden) ∧ (after laden).current = some 0 ∧
    RecvCall ⟨8, by decide⟩ 0 ⟨2, 1, 0x3000, 0⟩ (after laden) (after laden)
      (after (laden ++ [.syscall ⟨2, 1, 0x3000, 0⟩])) ∧
    Fails 0 (after laden) (after (laden ++ [.syscall ⟨2, 1, 0x3000, 0⟩])) ∧
    ¬ Unspent 0 (after laden) (after laden) (after (laden ++ [.syscall ⟨2, 1, 0x3000, 0⟩])) := by
  refine ⟨after_reachable (by decide), by decide, .called (step_after laden _ (by decide)), ?_,
    fun h => ?_⟩
  · exact ⟨.outOfResources, 0, [.recvReturned 0
      (.ok ⟨Message.new 0, some (.endpoint ⟨0, 0⟩ true true)⟩), .recvAccepted 0 delegatedEp (some ⟨0, 0⟩)], rfl⟩
  · exact absurd (congrArg List.length (h.rings delegatedEp)) (by decide)

/-- A `Recv` through a handle that names nothing fails and changes nothing. -/
theorem failed_recv_unspent_iff_unnamed :
    Unspent 0 (after laden) (after laden) (after (laden ++ [.syscall ⟨2, 9, 0x3000, 0⟩])) := by
  have hunnamed : ((after laden).tasks[0]?.bind fun x => x.caps.resolve 9) = none := by decide
  have hcall : RecvCall ⟨8, by decide⟩ 0 ⟨2, 9, 0x3000, 0⟩ (after laden) (after laden)
      (after (laden ++ [.syscall ⟨2, 9, 0x3000, 0⟩])) := .called (step_after laden _ (by decide))
  refine (failed_recv_unspent_iff (after_reachable (by decide)) (by decide) (by decide)
    hcall).mpr ?_ ⟨.badHandle, 0, [], rfl⟩
  rintro x km - ⟨y, hy, -, ep, obj, ⟨send, recv, hcap, -⟩, -⟩
  rw [hy, Option.bind_some] at hunnamed
  exact absurd (hcap.symm.trans hunnamed) (Option.some_ne_none _)

end Machine

end StarOs.Kernel
