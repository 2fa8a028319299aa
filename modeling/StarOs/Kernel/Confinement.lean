import StarOs.Kernel.Mediation

/-! Where capabilities go. A task's table changes in four ways, a mailbox and an
endpoint in two each; every capability met on the way was granted at a spawn, and a
task gains one by receiving a message whose sender held it. -/

namespace StarOs.Kernel

open Library

namespace Machine

/-- The acts of a run in which kernel code puts no capability in a message. -/
def Act.uncapped : Act → Prop
  | .send _ km => km.cap = none
  | _ => True

variable {heap : Heap} {act : Act} {k k' : Machine} {t i : ℕ} {x x' y : Task}

/-! ### What one act does to a table -/

/-- The act runs the tail of the `Recv` made with this frame. -/
def Answers (k : Machine) (act : Act) (frame : Frame) : Prop :=
  (act = .syscall frame ∧ Syscall.fromRaw frame.rax = some .recv) ∨
    (act = .resume ∧ ∃ ep corrupt via, k.loaded = some (.recvParked ep (.ring3 frame corrupt via)))

/-- Task `i` came back from a successful `Recv` of `km`: its program reads the message
in the buffer it named, with `hd` for a capability. -/
structure Received (heap : Heap) (k k' : Machine) (act : Act) (i : ℕ) (x x' : Task)
    (km : KMessage) (hd : UInt32) (frame : Frame) : Prop where
  current : k.current = some i
  task : k.tasks[i]? = some x
  task' : k'.tasks[i]? = some x'
  answers : k.Answers act frame
  grown : Grown heap km hd x.caps x'.caps
  read : Message.read x'.mem frame.rsi = { km.msg with cap := hd }
  log : ∃ rip evs, k'.log = .sysret i (.ok 0) rip :: .recvReturned i (.ok km) :: evs ++ k.log
  held : (∃ ep, ((k.ipc ep).decideRecv i).1.message = some km) ∨ x.mailbox = some km

/-- The ways the table of task `i` comes to be what it is after an act. -/
inductive TableChange (heap : Heap) (k k' : Machine) (act : Act) (i : ℕ) (x' : Task) : Prop
  | same (x : Task) (hx : k.tasks[i]? = some x) (h : x'.caps = x.caps)
  | released (x : Task) (hx : k.tasks[i]? = some x) (hdead : x.state = .dead) (h : x'.caps = [])
  | granted (grants : List Cap) (hi : i = k.tasks.length)
      (hlog : k'.log = .spawned i grants :: k.log)
      (h : grantTable heap grants emptyCaps = some x'.caps)
  | received (x : Task) (km : KMessage) (hd : UInt32) (frame : Frame)
      (h : Received heap k k' act i x x' km hd frame)

theorem KeptAt.table (h : KeptAt i k k') (hx' : k'.tasks[i]? = some x') :
    TableChange heap k k' act i x' := by
  rcases h with h | ⟨y, hy, hdead, h⟩
  · rw [hx'] at h
    obtain ⟨y, hy, hhold⟩ := Option.map_eq_some_iff.mp h.symm
    exact .same y hy (caps_of_holdings hhold.symm)
  · rw [hx'] at h
    obtain ⟨-, hcaps, -⟩ : _ ∧ x'.caps = [] ∧ _ := by simpa [Task.holdings] using h
    exact .released y hy hdead hcaps

theorem mem_rewrite {ptr : UInt64} (hw : x.Writable ptr) (caps : CapTable)
    (mem : UInt64 → UInt64) : (x.rewrite caps mem).mem = mem := by
  obtain ⟨-, s, hs, -⟩ := writable_space hw
  simp [Task.rewrite, Task.mem, hs]

/-- A delivery to ring 3 is a successful receive, or finds the heap full. -/
theorem Delivered.received {frame : Frame} {corrupt : Bool} {via : ObjectRef} {km : KMessage}
    {x₀ : Task} (evs : List Event)
    (hdel : Delivered heap i (.ring3 frame corrupt via) km x₀ x' (evs ++ k.log) k'.log)
    (hw : x₀.Writable frame.rsi) (hk : k.current = some i) (hx : k.tasks[i]? = some x)
    (hx' : k'.tasks[i]? = some x') (hcaps : x₀.caps = x.caps) (hans : k.Answers act frame)
    (hheld : (∃ ep, ((k.ipc ep).decideRecv i).1.message = some km) ∨ x.mailbox = some km) :
    (∃ hd, Received heap k k' act i x x' km hd frame) ∨
      (x'.caps = x.caps ∧ ∃ rip, k'.log =
        .sysret i (.error .outOfResources) rip :: .recvReturned i (.ok km) :: (evs ++ k.log)) := by
  obtain ⟨rip, ⟨hd, caps, hgrown, rfl, hlog⟩ | ⟨-, rfl, hlog⟩⟩ := hdel
  · refine .inl ⟨hd, hk, hx, hx', hans, hcaps ▸ hgrown, ?_, ⟨rip, evs, hlog⟩, hheld⟩
    rw [mem_rewrite hw, Message.read_write]
  · exact .inr ⟨hcaps, rip, hlog⟩

theorem Delivered.table {frame : Frame} {corrupt : Bool} {via : ObjectRef} {km : KMessage}
    {x₀ : Task} (evs : List Event)
    (hdel : Delivered heap i (.ring3 frame corrupt via) km x₀ x' (evs ++ k.log) k'.log)
    (hw : x₀.Writable frame.rsi) (hk : k.current = some i) (hx : k.tasks[i]? = some x)
    (hx' : k'.tasks[i]? = some x') (hcaps : x₀.caps = x.caps) (hans : k.Answers act frame)
    (hheld : (∃ ep, ((k.ipc ep).decideRecv i).1.message = some km) ∨ x.mailbox = some km) :
    TableChange heap k k' act i x' := by
  rcases hdel.received evs hw hk hx hx' hcaps hans hheld with ⟨hd, h⟩ | ⟨hsame, -⟩
  · exact .received x km hd frame h
  · exact .same x hx hsame

theorem Reply.table {frame : Frame} (h : Reply heap t x frame k k') (hk : k.current = some t)
    (hx : k.tasks[t]? = some x) (hx' : k'.tasks[i]? = some x') :
    TableChange heap k k' (.syscall frame) i x' := by
  cases h with
  | early rc h => exact .same x' (h.tasks ▸ hx') rfl
  | quiet hcall h => exact (h.kept i).table hx'
  | sent hcall n obj km hent h =>
    obtain ⟨y, hy, heq⟩ := caps_of_authority h.authority.symm hx'
    exact .same y hy heq.symm
  | received hcall n obj corrupt hauth hwrite h =>
    by_cases hi : t = i
    · subst hi
      obtain ⟨z, hz, hown⟩ := h.own
      obtain rfl : x' = z := Option.some.inj (hx'.symm.trans hz)
      rcases hown with ⟨hhold, -⟩ | ⟨ep, km, -, hmsg, hdel⟩
      · exact .same x hx ((caps_of_holdings hhold).trans rfl)
      · refine hdel.table [_] ?_ hk hx hx' rfl (.inl ⟨rfl, hcall⟩) (.inl ⟨ep, hmsg⟩)
        simpa [Task.Writable, Task.reach, Task.rewrite, Function.comp_def] using hwrite
    · have hhold := h.others i hi
      rw [hx'] at hhold
      obtain ⟨y, hy, heq⟩ := Option.map_eq_some_iff.mp hhold.symm
      exact .same y hy (caps_of_holdings heq.symm)
  | revoked _ _ _ _ htasks => exact .same x' (htasks ▸ hx') rfl

theorem Outcome.table (hc : k.Coherent) (h : Outcome heap k k' act) (hx' : k'.tasks[i]? = some x') :
    TableChange heap k k' act i x' := by
  cases h with
  | quiet h => exact (h.kept i).table hx'
  | joined task hcaps hmail htasks hcoh hwire hipc hobj hlog =>
    rw [htasks] at hx'
    rcases Nat.lt_or_ge i k.tasks.length with hlt | hge
    · rw [List.getElem?_append_left hlt] at hx'
      exact .same x' hx' rfl
    · rw [List.getElem?_append_right hge] at hx'
      obtain ⟨hi, rfl⟩ : i - k.tasks.length = 0 ∧ task = x' := by
        simpa [List.getElem?_singleton] using hx'
      obtain rfl : i = k.tasks.length := by omega
      exact .granted _ rfl hlog hcaps
  | served t x hk hx h => exact h.table hk hx hx'
  | sent t hk h =>
    obtain ⟨y, hy, heq⟩ := caps_of_authority h.authority.symm hx'
    exact .same y hy heq.symm
  | received t x hk hx h =>
    by_cases hi : t = i
    · subst hi
      obtain ⟨z, hz, hown⟩ := h.own
      obtain rfl : x' = z := Option.some.inj (hx'.symm.trans hz)
      rcases hown with ⟨hhold, -⟩ | ⟨ep, km, -, hmsg, hsame, -⟩
      · exact .same x hx (caps_of_holdings hhold)
      · exact .same x hx (by rw [hsame])
    · have hhold := h.others i hi
      rw [hx'] at hhold
      obtain ⟨y, hy, heq⟩ := Option.map_eq_some_iff.mp hhold.symm
      exact .same y hy (caps_of_holdings heq.symm)
  | stored t x mem hk hx h =>
    subst h
    by_cases hi : t = i
    · subst hi
      rw [rewriteTask_getElem? _ _ hx] at hx'
      exact .same x hx (Option.some.inj hx' ▸ rfl)
    · exact .same x' (by simpa [rewriteTask, hi] using hx') rfl
  | created htasks => exact .same x' (htasks ▸ hx') rfl
  | destroyed htasks => exact .same x' (htasks ▸ hx') rfl
  | resumed h =>
    cases h with
    | quiet h => exact (h.kept i).table hx'
    | delivered t x z ep caller km hk hx hl hmail hcoh hwire hkept hipc hobj hz hdel =>
      by_cases hi : t = i
      · subst hi
        obtain rfl : x' = z := Option.some.inj (hx'.symm.trans hz)
        cases caller with
        | thread => exact .same x hx (by rw [hdel.1])
        | ring3 frame corrupt via =>
          have hrun : x.state = .running := (hc.running t x hx).mpr hk
          have hok := hc.ok t x hx
          simp only [Task.Ok, hrun] at hok
          exact hdel.table [] (hok.2.2 _ hl) hk hx hx' rfl
            (.inr ⟨rfl, ep, corrupt, via, hl⟩) (.inr hmail)
      · exact (hkept i hi).table hx'

/-! ### What one act does to messages -/

/-- The message was sent in this act: kernel code made it up, or the current task's own
table resolved the handle it names to the capability it carries. -/
def SentIn (k : Machine) (act : Act) (km : KMessage) : Prop :=
  (∃ ep, act = .send ep km) ∨ ∃ t x frame, act = .syscall frame ∧ k.current = some t ∧
    k.tasks[t]? = some x ∧ ∀ c, km.cap = some c → x.caps.resolve km.msg.cap = some c

/-- An endpoint's array changes by a decision. -/
theorem Outcome.endpoint (h : Outcome heap k k' act) (ep : Fin numEndpoints) :
    k'.ipc ep = k.ipc ep ∨
      (∃ t km, SentIn k act km ∧ k'.ipc ep = ((k.ipc ep).decideSend t km).2) ∨
      ∃ t, k'.ipc ep = ((k.ipc ep).decideRecv t).2 := by
  have hupd : ∀ {n : ℕ} {f : Fin numEndpoints → Endpoint},
      (k'.ipc = k.ipc ∨ ∃ e : Fin numEndpoints, e = n ∧
        k'.ipc = Function.update k.ipc e (f e)) → k'.ipc ep = k.ipc ep ∨ k'.ipc ep = f ep := by
    rintro n f (hipc | ⟨e, -, hipc⟩)
    · exact .inl (by rw [hipc])
    · by_cases he : ep = e
      · subst he; exact .inr (by rw [hipc, Function.update_self])
      · exact .inl (by rw [hipc, Function.update_of_ne he])
  cases h with
  | quiet h => exact .inl (by rw [h.ipc])
  | joined _ _ _ _ _ _ hipc => exact .inl (by rw [hipc])
  | served t x hk hx h =>
    cases h with
    | early rc h => exact .inl (by rw [h.own.ipc])
    | quiet hcall h => exact .inl (by rw [h.ipc])
    | sent hcall n obj km hent h =>
      exact (hupd (f := fun e => ((k.ipc e).decideSend t km).2) h.ipc).imp_right fun heq =>
        .inl ⟨t, km, .inr ⟨t, x, _, rfl, hk, hx, hent.carries⟩, heq⟩
    | received hcall n obj corrupt hauth hwrite h =>
      exact (hupd (f := fun e => ((k.ipc e).decideRecv t).2) h.ipc).imp_right fun heq =>
        .inr ⟨t, heq⟩
    | revoked _ _ _ _ _ hipc => exact .inl (by rw [hipc])
  | sent t hk h =>
    exact (hupd (f := fun e => ((k.ipc e).decideSend t _).2) h.ipc).imp_right fun heq =>
      .inl ⟨t, _, .inl ⟨_, rfl⟩, heq⟩
  | received t x hk hx h =>
    exact (hupd (f := fun e => ((k.ipc e).decideRecv t).2) h.ipc).imp_right fun heq => .inr ⟨t, heq⟩
  | stored t x mem hk hx h => exact .inl (by rw [h]; rfl)
  | created _ _ hipc => exact .inl (by rw [hipc])
  | destroyed _ _ hipc => exact .inl (by rw [hipc])
  | resumed h =>
    cases h with
    | quiet h => exact .inl (by rw [h.ipc])
    | delivered _ _ _ _ _ _ _ _ _ _ _ _ _ hipc => exact .inl (by rw [hipc])

theorem KeptAt.mailbox {m : KMessage} (h : KeptAt i k k') (hx' : k'.tasks[i]? = some x')
    (hm : x'.mailbox = some m) : ∃ x, k.tasks[i]? = some x ∧ x.mailbox = some m := by
  rcases h with h | ⟨y, hy, hdead, h⟩
  · rw [hx'] at h
    obtain ⟨y, hy, hhold⟩ := Option.map_eq_some_iff.mp h.symm
    exact ⟨y, hy, (congrArg (fun p => p.2.2) hhold).trans hm⟩
  · rw [hx'] at h
    obtain ⟨-, -, hnone⟩ : _ ∧ _ ∧ x'.mailbox = none := by simpa [Task.holdings] using h
    rw [hm] at hnone
    cases hnone

theorem RecvPost.mailbox {ep : ℕ} {caller : Caller} {m : KMessage}
    (h : RecvPost heap t ep caller x k k') (hx : ∃ z, k.tasks[t]? = some z ∧ z.mailbox = x.mailbox)
    (hx' : k'.tasks[i]? = some x') (hm : x'.mailbox = some m) :
    ∃ x, k.tasks[i]? = some x ∧ x.mailbox = some m := by
  by_cases hi : t = i
  · subst hi
    obtain ⟨z, hz, hzm⟩ := hx
    obtain ⟨w, hw, hown⟩ := h.own
    obtain rfl : x' = w := Option.some.inj (hx'.symm.trans hw)
    refine ⟨z, hz, hzm.trans ?_⟩
    rcases hown with ⟨hhold, -⟩ | ⟨e, km, -, -, hdel⟩
    · exact (congrArg (fun p => p.2.2) hhold).symm.trans hm
    · have hcore : x'.mailbox = x.mailbox := congrArg (fun p => p.2.2.1) hdel.core
      exact hcore.symm.trans hm
  · have hhold := h.others i hi
    rw [hx'] at hhold
    obtain ⟨y, hy, heq⟩ := Option.map_eq_some_iff.mp hhold.symm
    exact ⟨y, hy, (congrArg (fun p => p.2.2) heq).trans hm⟩

/-- A message in a mailbox was there, or has just been sent. -/
theorem Outcome.mailbox {m : KMessage} (h : Outcome heap k k' act) (hx' : k'.tasks[i]? = some x')
    (hm : x'.mailbox = some m) :
    (∃ x, k.tasks[i]? = some x ∧ x.mailbox = some m) ∨ SentIn k act m := by
  cases h with
  | quiet h => exact .inl ((h.kept i).mailbox hx' hm)
  | joined task hcaps hmail htasks =>
    rw [htasks] at hx'
    rcases Nat.lt_or_ge i k.tasks.length with hlt | hge
    · rw [List.getElem?_append_left hlt] at hx'
      exact .inl ⟨x', hx', hm⟩
    · rw [List.getElem?_append_right hge] at hx'
      obtain ⟨-, rfl⟩ : i - k.tasks.length = 0 ∧ task = x' := by
        simpa [List.getElem?_singleton] using hx'
      rw [hmail] at hm
      cases hm
  | served t x hk hx h =>
    cases h with
    | early rc h => exact .inl ⟨x', h.tasks ▸ hx', hm⟩
    | quiet hcall h => exact .inl ((h.kept i).mailbox hx' hm)
    | sent hcall n obj km hent h =>
      rcases h.mail i x' hx' m hm with rfl | hold
      · exact .inr (.inr ⟨t, x, _, rfl, hk, hx, hent.carries⟩)
      · exact .inl hold
    | received hcall n obj corrupt hauth hwrite h => exact .inl (h.mailbox ⟨x, hx, rfl⟩ hx' hm)
    | revoked _ _ _ _ htasks => exact .inl ⟨x', htasks ▸ hx', hm⟩
  | sent t hk h =>
    rcases h.mail i x' hx' m hm with rfl | hold
    · exact .inr (.inl ⟨_, rfl⟩)
    · exact .inl hold
  | received t x hk hx h => exact .inl (h.mailbox ⟨x, hx, rfl⟩ hx' hm)
  | stored t x mem hk hx h =>
    subst h
    by_cases hi : t = i
    · subst hi
      rw [rewriteTask_getElem? _ _ hx] at hx'
      obtain rfl := Option.some.inj hx'
      exact .inl ⟨x, hx, hm⟩
    · exact .inl ⟨x', by simpa [rewriteTask, hi] using hx', hm⟩
  | created htasks => exact .inl ⟨x', htasks ▸ hx', hm⟩
  | destroyed htasks => exact .inl ⟨x', htasks ▸ hx', hm⟩
  | resumed h =>
    cases h with
    | quiet h => exact .inl ((h.kept i).mailbox hx' hm)
    | delivered t x z ep caller km hk hx hl hmail hcoh hwire hkept hipc hobj hz hdel =>
      by_cases hi : t = i
      · subst hi
        obtain rfl : x' = z := Option.some.inj (hx'.symm.trans hz)
        have hnone : x'.mailbox = none := congrArg (fun p => p.2.2.1) hdel.core
        rw [hm] at hnone
        cases hnone
      · exact .inl ((hkept i hi).mailbox hx' hm)

/-! ### Confinement -/

/-- Every capability in a table, a message slot or a mailbox satisfies `P`. -/
structure Confined (P : Cap → Prop) (k : Machine) : Prop where
  tables : ∀ (i : ℕ) (x : Task) (c : Cap), k.tasks[i]? = some x → some c ∈ x.caps → P c
  endpoints : ∀ ep, (k.ipc ep).Holds fun km => ∀ c, km.cap = some c → P c
  mailboxes : ∀ (i : ℕ) (x : Task) (km : KMessage) (c : Cap), k.tasks[i]? = some x →
    x.mailbox = some km → km.cap = some c → P c

theorem mem_grantTable {grants : List Cap} {table table' : CapTable} {c : Cap}
    (h : grantTable heap grants table = some table') (hc : some c ∈ table') :
    c ∈ grants ∨ some c ∈ table := by
  induction grants generalizing table with
  | nil =>
    obtain rfl := Option.some.inj h
    exact .inr hc
  | cons cap grants ih =>
    simp only [grantTable] at h
    split at h
    · rename_i handle table₁ hinst
      rcases ih h with hmem | hmem
      · exact .inl (List.mem_cons_of_mem _ hmem)
      · rcases CapTable.mem_install hinst hmem with rfl | hmem
        · exact .inl List.mem_cons_self
        · exact .inr hmem
    · cases h

theorem mem_grown {km : KMessage} {h : UInt32} {caps caps' : CapTable} {c : Cap}
    (hg : Grown heap km h caps caps') (hc : some c ∈ caps') :
    km.cap = some c ∨ some c ∈ caps := by
  cases hcap : km.cap with
  | none =>
    obtain ⟨-, rfl⟩ : h = 0 ∧ caps' = caps := by simpa [Grown, hcap] using hg
    exact .inr hc
  | some d =>
    have hinst : caps.install (heap.serves (caps.length + 1)) d = some (h, caps') := by
      simpa [Grown, hcap] using hg
    rcases CapTable.mem_install hinst hc with rfl | hmem
    · exact .inl rfl
    · exact .inr hmem

/-- A property every granted capability has is never escaped from. -/
theorem Confined.step {P : Cap → Prop} (h : Confined P k) (hc : k.Coherent)
    (hout : Outcome heap k k' act) (hact : act.uncapped)
    (hgrant : ∀ t grants, k'.log = .spawned t grants :: k.log → ∀ c ∈ grants, P c) :
    Confined P k' := by
  have hsent : ∀ km, SentIn k act km → ∀ c, km.cap = some c → P c := by
    rintro km (⟨ep, rfl⟩ | ⟨t, x, frame, -, hk, hx, hres⟩) c hcap
    · rw [show km.cap = none from hact] at hcap
      cases hcap
    · exact h.tables t x c hx (CapTable.resolve_mem (hres c hcap))
  constructor
  · intro i x' c hx' hmem
    cases hout.table hc hx' with
    | same x hx heq => exact h.tables i x c hx (heq ▸ hmem)
    | released x hx hdead heq =>
      rw [heq] at hmem
      cases hmem
    | granted grants hi hlog htable =>
      rcases mem_grantTable htable hmem with hg | he
      · exact hgrant i grants hlog c hg
      · simp [emptyCaps] at he
    | received x km hd frame hrecv =>
      rcases mem_grown hrecv.grown hmem with hcap | hold
      · rcases hrecv.held with ⟨ep, hmsg⟩ | hmail
        · exact (h.endpoints ep).decideRecv.2 km hmsg c hcap
        · exact h.mailboxes i x km c hrecv.task hmail hcap
      · exact h.tables i x c hrecv.task hold
  · intro ep
    rcases hout.endpoint ep with heq | ⟨t, km, hfrom, heq⟩ | ⟨t, heq⟩
    · rw [heq]; exact h.endpoints ep
    · rw [heq]; exact (h.endpoints ep).decideSend (hsent km hfrom)
    · rw [heq]; exact (h.endpoints ep).decideRecv.1
  · intro i x' km c hx' hm hcap
    rcases hout.mailbox hx' hm with ⟨x, hx, hxm⟩ | hfrom
    · exact h.mailboxes i x km c hx hxm hcap
    · exact hsent km hfrom c hcap

/-- Every table has its null slot, unless its task is dead, and fits its handles. -/
structure Tabled (k : Machine) : Prop where
  sealed : ∀ (i : ℕ) (x : Task), k.tasks[i]? = some x → x.caps.Sealed ∨ x.state = .dead
  small : ∀ (i : ℕ) (x : Task), k.tasks[i]? = some x → x.caps.length < 2 ^ 32

theorem grantTable_tabled {grants : List Cap} {table table' : CapTable} (hs : table.Sealed)
    (hlt : table.length < 2 ^ 32) (h : grantTable heap grants table = some table') :
    table'.Sealed ∧ table'.length < 2 ^ 32 := by
  induction grants generalizing table with
  | nil =>
    obtain rfl := Option.some.inj h
    exact ⟨hs, hlt⟩
  | cons cap grants ih =>
    simp only [grantTable] at h
    split at h
    · rename_i handle table₁ hinst
      exact ih (CapTable.install_sealed hs hinst) (CapTable.install_lt hlt hinst).1 h
    · cases h

/-- What the receiver's table looks like after a successful receive. -/
theorem Grown.spec {km : KMessage} {hd : UInt32} {caps caps' : CapTable} (hs : caps.Sealed)
    (hlt : caps.length < 2 ^ 32) (h : Grown heap km hd caps caps') :
    (caps'.Sealed ∧ caps'.length < 2 ^ 32) ∧
    (∀ handle c, caps.resolve handle = some c → caps'.resolve handle = some c) ∧
    match km.cap with
    | none => hd = 0 ∧ caps' = caps
    | some c => hd ≠ 0 ∧ caps.resolve hd = none ∧ caps'.resolve hd = some c := by
  cases hcap : km.cap with
  | none =>
    obtain ⟨rfl, rfl⟩ : hd = 0 ∧ caps' = caps := by simpa [Grown, hcap] using h
    exact ⟨⟨hs, hlt⟩, fun _ _ h => h, rfl, rfl⟩
  | some c =>
    have hinst : caps.install (heap.serves (caps.length + 1)) c = some (hd, caps') := by
      simpa [Grown, hcap] using h
    obtain ⟨hlt', hfree⟩ := CapTable.install_lt hlt hinst
    exact ⟨⟨CapTable.install_sealed hs hinst, hlt'⟩,
      fun _ _ hr => CapTable.resolve_install_of_some hinst hr,
      CapTable.resolve_install_of_lt hs hinst hfree⟩

/-- The dead stay dead. -/
theorem Outcome.dead (hc : k.Coherent) (hq : k.net.Queued ringCap) (h : Outcome heap k k' act)
    (hx : k.tasks[i]? = some x) (hx' : k'.tasks[i]? = some x') (hd : x.state = .dead) :
    x'.state = .dead := by
  have hgone : k.net.phase i = .gone := phase_eq_gone.mpr ⟨x, hx, hd⟩
  have hgone' : k'.net.phase i = .gone := by
    rcases (h.refines hc).2 with heq | hstep
    · rw [heq]; exact hgone
    · exact hstep.gone hq hgone
  obtain ⟨y, hy, hdead⟩ := phase_eq_gone.mp hgone'
  exact Option.some.inj (hx'.symm.trans hy) ▸ hdead

theorem Tabled.step (h : Tabled k) (hc : k.Coherent) (hq : k.net.Queued ringCap)
    (hout : Outcome heap k k' act) : Tabled k' := by
  have hboth : ∀ (i : ℕ) (x' : Task), k'.tasks[i]? = some x' →
      (x'.caps.Sealed ∨ x'.state = .dead) ∧ x'.caps.length < 2 ^ 32 := by
    intro i x' hx'
    cases hout.table hc hx' with
    | same x hx heq =>
      rw [heq]
      exact ⟨(h.sealed i x hx).imp_right (hout.dead hc hq hx hx'), h.small i x hx⟩
    | released x hx hdead heq =>
      rw [heq]
      exact ⟨.inr (hout.dead hc hq hx hx' hdead), by simp⟩
    | granted grants hi hlog htable =>
      obtain ⟨hs, hlt⟩ := grantTable_tabled CapTable.emptyCaps_sealed (by simp [emptyCaps]) htable
      exact ⟨.inl hs, hlt⟩
    | received x km hd frame hrecv =>
      rcases h.sealed i x hrecv.task with hs | hdead
      · obtain ⟨⟨hs', hlt'⟩, -⟩ := hrecv.grown.spec hs (h.small i x hrecv.task)
        exact ⟨.inl hs', hlt'⟩
      · have hrun := (hc.running i x hrecv.task).mpr hrecv.current
        rw [hrun] at hdead
        cases hdead
  exact ⟨fun i x' hx' => (hboth i x' hx').1, fun i x' hx' => (hboth i x' hx').2⟩

/-- The capabilities granted at spawns so far. -/
def granted (log : List Event) : List Cap :=
  log.flatMap fun
    | .spawned _ grants => grants
    | _ => []

/-- On the way from boot to `k`, a task had this message accepted while its own table
resolved the handle the message names to `c`. -/
def Sender (root : UInt64) (k : Machine) (km : KMessage) (c : Cap) : Prop :=
  ∃ (k₁ k₂ : Machine) (heap : Heap) (frame : Frame) (t : ℕ) (x : Task),
    Run Act.uncapped (init root) k₁ ∧ k₁.Enabled (.syscall frame) ∧
    k₁.step heap (.syscall frame) = .ok k₂ ∧ Run Act.uncapped k₂ k ∧
    k₁.current = some t ∧ k₁.tasks[t]? = some x ∧ x.caps.resolve km.msg.cap = some c ∧
    ∃ evs ep via, k₂.log = evs ++ k₁.log ∧ .sendAccepted t ep km via ∈ evs

theorem Sender.later {root : UInt64} {km : KMessage} {c : Cap} (h : Sender root k km c)
    (hrun : Run Act.uncapped k k') : Sender root k' km c := by
  obtain ⟨k₁, k₂, heap, frame, t, x, h₁, he, hs, h₂, hrest⟩ := h
  exact ⟨k₁, k₂, heap, frame, t, x, h₁, he, hs, h₂.trans hrun, hrest⟩

/-- Every capability on the wire was sent by a task that held it. -/
theorem Run.sender {root : UInt64} (h : Run Act.uncapped (init root) k) {t : ℕ}
    {ep : Fin numEndpoints} {km : KMessage} {via : Option ObjectRef} {c : Cap}
    (hmem : .sendAccepted t ep km via ∈ k.log) (hcap : km.cap = some c) : Sender root k km c := by
  induction h with
  | refl => cases hmem
  | @tail k k' l h hact hmove ih =>
    obtain ⟨heap, act⟩ := l
    obtain ⟨hc, hq, -⟩ := Run.from_boot h
    obtain ⟨evs, hlog, hall⟩ := (outcome_of_step hc hq hmove.1 hmove.2).explained
    rw [hlog] at hmem
    rcases List.mem_append.mp hmem with hnew | hold
    · obtain ⟨hk, -, ⟨-, n, rfl⟩ | ⟨x, frame, r, -, rfl, hx, hent⟩⟩ := hall _ hnew
      · rw [show km.cap = none from hact] at hcap
        cases hcap
      · exact ⟨k, k', heap, frame, t, x, h, hmove.1, hmove.2, .refl, hk, hx,
          hent.carries c hcap, evs, ep, via, hlog, hnew⟩
    · exact (ih hold).later (.single hact hmove)

theorem granted_append (evs log : List Event) : granted (evs ++ log) = granted evs ++ granted log :=
  List.flatMap_append

/-- The invariants of a run in which kernel code sends no capability. -/
theorem Run.confined {root : UInt64} (h : Run Act.uncapped (init root) k) :
    Confined (· ∈ granted k.log) k ∧ Tabled k := by
  induction h with
  | refl =>
    refine ⟨⟨?_, fun ep => .new ?_, ?_⟩, ⟨?_, ?_⟩⟩
    · intro i x c hx; simp [init] at hx
    · intro c hc; cases hc
    · intro i x km c hx; simp [init] at hx
    · intro i x hx; simp [init] at hx
    · intro i x hx; simp [init] at hx
  | @tail k k' l h hact hmove ih =>
    obtain ⟨heap, act⟩ := l
    obtain ⟨hc, hq, -⟩ := Run.from_boot h
    have hout := outcome_of_step hc hq hmove.1 hmove.2
    refine ⟨?_, ih.2.step hc hq hout⟩
    obtain ⟨evs, hlog, -⟩ := hout.explained
    have hmono : Confined (· ∈ granted k'.log) k := by
      have hsub : ∀ c, c ∈ granted k.log → c ∈ granted k'.log := by
        intro c hmem
        rw [hlog, granted_append]
        exact List.mem_append_right _ hmem
      obtain ⟨ht, he, hm⟩ := ih.1
      exact ⟨fun i x c hx hmem => hsub c (ht i x c hx hmem),
        fun ep => ⟨fun km hkm c hcap => hsub c ((he ep).ring km hkm c hcap),
          fun w hw c hcap => hsub c ((he ep).senders w hw c hcap)⟩,
        fun i x km c hx hmail hcap => hsub c (hm i x km c hx hmail hcap)⟩
    refine hmono.step hc hout hact fun t grants hspawn c hmem => ?_
    rw [hspawn]
    simp only [granted, List.flatMap_cons]
    exact List.mem_append_left _ hmem

/-- A new successful receive in the history is one, with all it entails. -/
theorem Outcome.received_of_log (hc : k.Coherent) (h : Outcome heap k k' act) {km : KMessage}
    {rip : UInt64} {evs : List Event}
    (hlog : k'.log = .sysret i (.ok 0) rip :: .recvReturned i (.ok km) :: evs ++ k.log) :
    ∃ x x' hd frame, Received heap k k' act i x x' km hd frame := by
  have hno : ∀ {P : Event → Prop}, Grew P k k' → ¬ P (.recvReturned i (.ok km)) → False := by
    rintro P ⟨evs', hlog', hall⟩ hP
    obtain rfl : _ = evs' := List.append_cancel_right (hlog.symm.trans hlog')
    exact hP (hall _ (by simp))
  have hring3 : ∀ {t : ℕ} {x x₀ z : Task} {frame : Frame} {corrupt : Bool} {via : ObjectRef}
      {m : KMessage} (pre : List Event),
      Delivered heap t (.ring3 frame corrupt via) m x₀ z (pre ++ k.log) k'.log →
      x₀.Writable frame.rsi → k.current = some t → k.tasks[t]? = some x →
      k'.tasks[t]? = some z → x₀.caps = x.caps → k.Answers act frame →
      ((∃ ep, ((k.ipc ep).decideRecv t).1.message = some m) ∨ x.mailbox = some m) →
      ∃ x x' hd frame, Received heap k k' act i x x' km hd frame := by
    intro t x x₀ z frame corrupt via m pre hdel hw hk hx hz hcaps hans hheld
    rcases hdel.received pre hw hk hx hz hcaps hans hheld with ⟨hd, hrecv⟩ | ⟨-, rip', hlog'⟩
    · obtain ⟨rip', evs', hlog'⟩ := hrecv.log
      rw [hlog] at hlog'
      obtain ⟨⟨rfl, -⟩, ⟨-, rfl⟩, -⟩ : (i = t ∧ rip = rip') ∧ (i = t ∧ km = m) ∧ _ := by
        simpa using hlog'
      exact ⟨x, z, hd, frame, hrecv⟩
    · rw [hlog] at hlog'
      simp at hlog'
  cases h with
  | quiet h => exact (hno h.grew (by simp [Event.closing])).elim
  | joined _ _ _ _ _ _ _ _ hlog' =>
    rw [hlog] at hlog'
    simp at hlog'
  | served t x hk hx h =>
    cases h with
    | early rc h =>
      obtain ⟨rip', hlog'⟩ := h.log
      exact (hno (P := fun ev => ev = .sysret t rc rip') (.of_cons hlog' rfl) (by simp)).elim
    | quiet hcall h => exact (hno h.grew (by simp [Event.closing])).elim
    | sent hcall n obj m hent h => exact (hno h.grew (by simp [Event.closing])).elim
    | received hcall n obj corrupt hauth hwrite h =>
      obtain ⟨z, hz, ⟨-, hgrew⟩ | ⟨ep, m, -, hmsg, hdel⟩⟩ := h.own
      · exact (hno hgrew (by simp [Event.closing])).elim
      · refine hring3 [_] hdel ?_ hk hx hz rfl (.inl ⟨rfl, hcall⟩) (.inl ⟨ep, hmsg⟩)
        simpa [Task.Writable, Task.reach, Task.rewrite, Function.comp_def] using hwrite
    | revoked _ _ _ _ _ _ _ _ hlog' =>
      exact (hno (P := fun ev => ∀ m, ev ≠ .recvReturned i (.ok m)) ⟨[_, _], hlog', by simp⟩
        (by simp)).elim
  | sent t hk h => exact (hno h.grew (by simp [Event.closing])).elim
  | received t x hk hx h =>
    obtain ⟨z, hz, ⟨-, hgrew⟩ | ⟨ep, m, -, hmsg, -, hlog'⟩⟩ := h.own
    · exact (hno hgrew (by simp [Event.closing])).elim
    · rw [hlog] at hlog'
      simp at hlog'
  | stored t x mem hk hx h =>
    exact (hno (P := fun _ => False) (.of_log (h ▸ rfl)) id).elim
  | created _ _ _ hobj =>
    rcases hobj with ⟨-, hlog'⟩ | ⟨r, -, hlog'⟩
    · exact (hno (P := fun _ => False) (.of_log hlog') id).elim
    · rw [hlog] at hlog'
      simp at hlog'
  | destroyed _ _ _ hobj =>
    rcases hobj with ⟨-, hlog'⟩ | ⟨-, hlog'⟩
    · exact (hno (P := fun _ => False) (.of_log hlog') id).elim
    · rw [hlog] at hlog'
      simp at hlog'
  | resumed h =>
    cases h with
    | quiet h => exact (hno h.grew (by simp [Event.closing])).elim
    | delivered t x z ep caller m hk hx hl hmail hcoh hwire hkept hipc hobj hz hdel =>
      cases caller with
      | thread =>
        obtain ⟨-, hlog'⟩ := hdel
        rw [hlog] at hlog'
        simp at hlog'
      | ring3 frame corrupt via =>
        have hrun : x.state = .running := (hc.running t x hx).mpr hk
        have hok := hc.ok t x hx
        simp only [Task.Ok, hrun] at hok
        exact hring3 [] hdel (hok.2.2 _ hl) hk hx hz rfl (.inr ⟨rfl, ep, corrupt, via, hl⟩)
          (.inr hmail)

/-- Confinement: in every run in which only ring 3 sends capabilities, all of them were
granted at a spawn, wherever they are; no handle that means something changes meaning
and the null handle never means anything; and a handle that gains a meaning names what
a successful `Recv` brought from a sender that held it, which the program reads back
with its fresh handle in place. -/
theorem capability_confinement {root : UInt64} (h : Run Act.uncapped (init root) k) :
    Confined (· ∈ granted k.log) k ∧
    (∀ (i : ℕ) (x : Task), k.tasks[i]? = some x → x.state ≠ .dead → x.caps[0]? = some none) ∧
    ∀ (heap : Heap) (act : Act) (k' : Machine), act.uncapped → k.Enabled act →
      k.step heap act = .ok k' →
      (∀ (i : ℕ) (x x' : Task), k.tasks[i]? = some x → k'.tasks[i]? = some x' →
        x'.state ≠ .dead →
        (∀ handle c, x.caps.resolve handle = some c → x'.caps.resolve handle = some c) ∧
        ∀ handle c, x'.caps.resolve handle = some c → x.caps.resolve handle = some c ∨
          ∃ frame km rip evs, k.current = some i ∧ k.Answers act frame ∧
            k'.log = .sysret i (.ok 0) rip :: .recvReturned i (.ok km) :: evs ++ k.log ∧
            km.cap = some c ∧ Sender root k' km c) ∧
      ∀ i km rip evs,
        k'.log = .sysret i (.ok 0) rip :: .recvReturned i (.ok km) :: evs ++ k.log →
        ∃ x x' frame hd, k.current = some i ∧ k.tasks[i]? = some x ∧ k'.tasks[i]? = some x' ∧
          k.Answers act frame ∧ Message.read x'.mem frame.rsi = { km.msg with cap := hd } ∧
          match km.cap with
          | none => hd = 0 ∧ x'.caps = x.caps
          | some c => hd ≠ 0 ∧ x.caps.resolve hd = none ∧ x'.caps.resolve hd = some c := by
  obtain ⟨hc, hq, -⟩ := Run.from_boot h
  obtain ⟨hconf, htab⟩ := Run.confined h
  refine ⟨hconf, fun i x hx hlive => (htab.sealed i x hx).resolve_right hlive, ?_⟩
  intro heap act k' hact he hs
  have hout := outcome_of_step hc hq he hs
  have hrun' : Run Act.uncapped (init root) k' := .tail (a := (heap, act)) h hact ⟨he, hs⟩
  -- the receiver is running, so its table has its null slot
  have hspec : ∀ {i x x' km hd frame}, Received heap k k' act i x x' km hd frame → _ :=
    fun {i x x' km hd frame} (hrecv : Received heap k k' act i x x' km hd frame) =>
      hrecv.grown.spec ((htab.sealed i x hrecv.task).resolve_right (by
        rw [(hc.running i x hrecv.task).mpr hrecv.current]; simp)) (htab.small i x hrecv.task)
  constructor
  · intro i x x' hx hx' hlive
    cases hout.table hc hx' with
    | same y hy heq =>
      obtain rfl := Option.some.inj (hx.symm.trans hy)
      rw [heq]
      exact ⟨fun _ _ hr => hr, fun _ _ hr => .inl hr⟩
    | released y hy hdead heq =>
      obtain rfl := Option.some.inj (hx.symm.trans hy)
      exact absurd (hout.dead hc hq hx hx' hdead) hlive
    | granted grants hi hlog htable =>
      have hlt := lt_of_getElem? hx
      omega
    | received y km hd frame hrecv =>
      obtain rfl := Option.some.inj (hx.symm.trans hrecv.task)
      refine ⟨(hspec hrecv).2.1, fun handle c hr => ?_⟩
      obtain ⟨rip, evs, hlog⟩ := hrecv.log
      cases hcap : km.cap with
      | none =>
        obtain ⟨-, heq⟩ : hd = 0 ∧ x'.caps = x.caps := by simpa [Grown, hcap] using hrecv.grown
        exact .inl (heq ▸ hr)
      | some d =>
        have hinst : x.caps.install (heap.serves (x.caps.length + 1)) d = some (hd, x'.caps) := by
          simpa [Grown, hcap] using hrecv.grown
        refine (CapTable.resolve_of_install hinst hr).imp_right fun heq => ?_
        subst heq
        have hback : .recvReturned i (.ok km) ∈ k'.log := by rw [hlog]; simp
        obtain ⟨s, ep, via, hsent⟩ := sent_of_returned (Run.from_boot hrun').2.2 hback
        exact ⟨frame, km, rip, evs, hrecv.current, hrecv.answers, hlog, hcap,
          Run.sender hrun' hsent hcap⟩
  · intro i km rip evs hlog
    obtain ⟨x, x', hd, frame, hrecv⟩ := hout.received_of_log hc hlog
    exact ⟨x, x', frame, hd, hrecv.current, hrecv.task, hrecv.task', hrecv.answers, hrecv.read,
      (hspec hrecv).2.2⟩

/-- The message that names its sender's handle 1. -/
def offer : Message := ⟨7, Vector.replicate 4 0, 1⟩

/-- Task 0 sends task 1 a message naming its own capability, and task 1 is about to
receive it. -/
def delegating : List Act :=
  [.create (.endpoint 2),
    .spawn (some 0x1000) (some { flat with mem := offer.write flat.mem 0x2000 })
      [.endpoint ⟨0, 0⟩ true true],
    .spawn (some 0x2000) (some flat) [.endpoint ⟨0, 0⟩ false true],
    .start, .resume, .syscall ⟨1, 1, 0x2000, 0⟩, .syscall ⟨0, 0, 0, 0⟩, .resume]

/-- The capability arrives under a fresh handle that means what it meant to its sender. -/
theorem capability_confinement_delegation :
    ∃ x hd, (after (delegating ++ [.syscall ⟨2, 1, 0x3000, 0⟩])).tasks[1]? = some x ∧ hd ≠ 0 ∧
      x.caps.resolve hd = some (.endpoint ⟨0, 0⟩ true true) := by
  have hrun : Run Act.uncapped (init 0) (after delegating) :=
    run_after (by decide) (by simp [delegating, Act.uncapped])
  have hstep := step_after delegating (.syscall ⟨2, 1, 0x3000, 0⟩) (by decide)
  obtain ⟨x, x', frame, hd, -, -, hx', -, -, hne, -, hres⟩ :=
    ((capability_confinement hrun).2.2 _ (.syscall ⟨2, 1, 0x3000, 0⟩) _ trivial hstep.1 hstep.2).2 1
      ⟨offer, some (.endpoint ⟨0, 0⟩ true true)⟩ 0
      [.recvAccepted 1 delegatedEp (some ⟨0, 0⟩)] rfl
  exact ⟨x', hd, hx', hne, hres⟩

end Machine

end StarOs.Kernel
