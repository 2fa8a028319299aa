import StarOs.Kernel.Calls

/-! One act of the core, from a coherent machine: it is served without a panic, and
what it did is one of the cases of `Outcome`. Every invariant of the runs is read
off those cases. -/

namespace StarOs.Kernel

open Library

namespace Machine

variable {k : Machine} {t : ℕ} {x : Task}

/-- What task `i` holds is as it was, or was released with it. -/
def KeptAt (i : ℕ) (k k' : Machine) : Prop :=
  k'.tasks[i]?.map Task.holdings = k.tasks[i]?.map Task.holdings ∨
    ∃ y, k.tasks[i]? = some y ∧ y.state = .dead ∧
      k'.tasks[i]?.map Task.holdings = some (none, [], none)

theorem keptAt_of_holdings {k' : Machine} (i : ℕ)
    (h : k'.tasks.map Task.holdings = k.tasks.map Task.holdings) : KeptAt i k k' := by
  left
  rw [← List.getElem?_map, h, List.getElem?_map]

/-- No capability, message, endpoint or object moved. -/
structure Quiet (k k' : Machine) : Prop where
  coherent : k'.Coherent
  wire : k'.net = k.net ∨ Net.Step ringCap k.net k'.net
  kept : ∀ i, KeptAt i k k'
  ipc : k'.ipc = k.ipc
  objects : k'.objects = k.objects
  grew : Grew (fun ev => ev.closing) k k'

theorem Quiet.of_switched {k' : Machine} (hc : k'.Coherent)
    (hwire : k'.net = k.net ∨ Net.Step ringCap k.net k'.net) (h : Switched k k') : Quiet k k' :=
  ⟨hc, hwire, fun i => keptAt_of_holdings i h.holdings, h.ipc, h.objects, .of_log h.log⟩

/-! ### Syscalls -/

/-- A syscall that goes straight back to ring 3 with `rc`: no task, endpoint or
object changed. -/
structure Early (t : ℕ) (rc : Rc) (k k' : Machine) : Prop where
  own : Own t k k'
  tasks : k'.tasks = k.tasks
  log : ∃ rip, k'.log = .sysret t rc rip :: k.log

theorem Early.traffic {rc : Rc} {k' : Machine} (h : Early t rc k k') :
    traffic k'.log = Machine.traffic k.log := by
  obtain ⟨rip, hlog⟩ := h.log
  rw [hlog]
  rfl

theorem Early.net {rc : Rc} {k' : Machine} (h : Early t rc k k') : k'.net = k.net :=
  Net.ext (by simp [Machine.net, h.own.ipc]) h.own.sameSched.phase h.traffic

/-- The handle names an endpoint object that is live, with the direction wanted. -/
def Authorised (x : Task) (objects : Slots) (handle : UInt32) (wantSend : Bool) (ep : ℕ)
    (obj : ObjectRef) : Prop :=
  ∃ send recv, x.caps.resolve handle = some (.endpoint obj send recv) ∧
    (if wantSend then send else recv) = true ∧ Obj.get objects obj = some (.endpoint ep)

theorem endpointFor_spec (handle : UInt32) (wantSend : Bool) (hk : k.current = some t)
    (hx : k.tasks[t]? = some x) :
    (∃ e, k.endpointFor handle wantSend = .ok (.error e)) ∨
    ∃ ep obj, k.endpointFor handle wantSend = .ok (.ok (ep, obj)) ∧
      Authorised x k.objects handle wantSend ep obj := by
  simp only [endpointFor, resolveCap_eq handle hk hx, ok_bind]
  cases hr : x.caps.resolve handle with
  | none => exact .inl ⟨_, rfl⟩
  | some c =>
    obtain ⟨obj, send, recv⟩ := c
    cases hg : Obj.get k.objects obj with
    | none =>
      left
      by_cases hdir : ((wantSend && !send) || (!wantSend && !recv)) = true <;> simp [hdir, hg]
    | some o =>
      obtain ⟨ep⟩ := o
      by_cases hdir : ((wantSend && !send) || (!wantSend && !recv)) = true
      · left; simp [hdir]
      · right
        refine ⟨ep, obj, by simp [hdir, hg], send, recv, hr, ?_, hg⟩
        cases wantSend <;> cases send <;> cases recv <;> simp_all

theorem endpointFor_of_authorised {handle : UInt32} {wantSend : Bool} {ep : ℕ} {obj : ObjectRef}
    (hk : k.current = some t) (hx : k.tasks[t]? = some x)
    (h : Authorised x k.objects handle wantSend ep obj) :
    k.endpointFor handle wantSend = .ok (.ok (ep, obj)) := by
  obtain ⟨send, recv, hcap, hdir, hget⟩ := h
  simp only [endpointFor, resolveCap_eq handle hk hx, ok_bind, hcap]
  cases wantSend <;> simp_all

/-- A handle names one endpoint. -/
theorem Authorised.unique {objects : Slots} {handle : UInt32} {wantSend : Bool} {ep ep' : ℕ}
    {obj obj' : ObjectRef} (h : Authorised x objects handle wantSend ep obj)
    (h' : Authorised x objects handle wantSend ep' obj') : ep = ep' := by
  obtain ⟨send, recv, hcap, -, hget⟩ := h
  obtain ⟨send', recv', hcap', -, hget'⟩ := h'
  obtain ⟨rfl, -, -⟩ := Cap.endpoint.inj (Option.some.inj (hcap.symm.trans hcap'))
  exact Object.endpoint.inj (Option.some.inj (hget.symm.trans hget'))

/-- A send the current task was entitled to: the message may name a capability of
its own table, and carries that one. -/
structure Entitled (x : Task) (frame : Frame) (objects : Slots) (ep : ℕ) (obj : ObjectRef)
    (km : KMessage) : Prop where
  authorised : Authorised x objects frame.rdi.toUInt32 true ep obj
  carries : ∀ c, km.cap = some c → x.caps.resolve km.msg.cap = some c
  empty : km.cap = none → km.msg.cap = 0

/-- What a syscall did. -/
inductive Reply (heap : Heap) (t : ℕ) (x : Task) (frame : Frame) (k k' : Machine) : Prop
  /-- it came straight back -/
  | early (rc : Rc) (h : Early t rc k k')
  /-- a yield, or an exit -/
  | quiet (hcall : Syscall.fromRaw frame.rax = some .yield ∨ Syscall.fromRaw frame.rax = some .exit)
      (h : Quiet k k')
  | sent (hcall : Syscall.fromRaw frame.rax = some .send) (ep : ℕ) (obj : ObjectRef)
      (km : KMessage) (hent : Entitled x frame k.objects ep obj km)
      (h : SendPost t ep km (some obj) k k')
  | received (hcall : Syscall.fromRaw frame.rax = some .recv) (ep : ℕ) (obj : ObjectRef)
      (corrupt : Bool) (hauth : Authorised x k.objects frame.rdi.toUInt32 false ep obj)
      (hwrite : x.Writable frame.rsi)
      (h : RecvPost heap t ep (.ring3 frame corrupt obj)
        (x.rewrite x.caps ((Message.new 0).write x.mem frame.rsi)) k k')
  | revoked (hcall : Syscall.fromRaw frame.rax = some .revoke) (c : Cap)
      (hc : x.caps.resolve frame.rdi.toUInt32 = some c)
      (hobj : Obj.revoke c.object k.objects = (true, k'.objects)) (htasks : k'.tasks = k.tasks)
      (hipc : k'.ipc = k.ipc) (hsched : SameSched k k') (rip : UInt64)
      (hlog : k'.log = .sysret t (.ok 0) rip :: .revoked c.object :: k.log)

/-- A syscall that comes straight back, whatever it counted, printed or switched on the way. -/
theorem reply_early (heap : Heap) (frame : Frame) (corrupt : Bool) (rc : Rc)
    (hk : k.current = some t) (hx : k.tasks[t]? = some x) (cpu : Cpu) (s : Stats) (arm : Bool)
    (con : List (List UInt8)) : ∃ k', ({ k with cpu := cpu, stats := s, armNoncanonical := arm, console := con } :
      Machine).sysret frame corrupt rc = .ok k' ∧ Reply heap t x frame k k' :=
  ⟨_, sysret_eq frame corrupt rc hk,
    .early rc ⟨.of_tasks hx rfl rfl rfl rfl rfl rfl rfl, rfl, _, rfl⟩⟩

theorem sysSend_spec (heap : Heap) (frame : Frame) (corrupt : Bool) (hc : k.Coherent)
    (hq : k.net.Queued ringCap) (hk : k.current = some t) (hx : k.tasks[t]? = some x)
    (hl : k.loaded = none) (hcall : Syscall.fromRaw frame.rax = some .send) :
    ∃ k', k.sysSend frame corrupt = .ok k' ∧ Reply heap t x frame k k' := by
  have hsend : ∀ ep obj km, Entitled x frame k.objects ep obj km →
      ∃ k', k.send ep km (.ring3 frame corrupt obj) = .ok k' ∧ Reply heap t x frame k k' := by
    intro ep obj km hent
    obtain ⟨k', hsend, hpost⟩ := send_spec hc hq hk hl ep km (.ring3 frame corrupt obj)
    exact ⟨k', hsend, .sent hcall ep obj km hent hpost⟩
  unfold sysSend
  rcases endpointFor_spec frame.rdi.toUInt32 true hk hx with ⟨e, he⟩ | ⟨ep, obj, he, hauth⟩
  · simp only [he, ok_bind]
    exact reply_early heap frame corrupt _ hk hx _ _ _ _
  · simp only [he, ok_bind]
    have hread : ∃ m, k.readUserMsg frame.rsi = .ok m := by
      unfold readUserMsg
      split
      · exact ⟨_, rfl⟩
      · simp only [currentSpace_eq hk hx, ok_bind]
        cases x.space with
        | none => exact ⟨_, rfl⟩
        | some s => by_cases hok : s.rangeOk frame.rsi messageSize false <;> simp [hok]
    obtain ⟨m, hm⟩ := hread
    simp only [hm, ok_bind]
    cases m with
    | none => exact reply_early heap frame corrupt _ hk hx _ _ _ _
    | some msg =>
      by_cases hcap : msg.cap = 0
      · simp only [hcap, if_true]
        exact hsend ep obj ⟨msg, none⟩ ⟨hauth, by simp, fun _ => hcap⟩
      · simp only [hcap, if_false, resolveCap_eq msg.cap hk hx, ok_bind]
        cases hres : x.caps.resolve msg.cap with
        | none => exact reply_early heap frame corrupt _ hk hx _ _ _ _
        | some c =>
          refine hsend ep obj ⟨msg, some c⟩ ⟨hauth, ?_, by simp⟩
          intro c' hc'
          rw [← hc']
          exact hres

/-- A receive decides nothing on the receiver's own memory. -/
theorem RecvPost.of_own {heap : Heap} {ep : ℕ} {caller : Caller} {k₁ k' : Machine}
    (h : RecvPost heap t ep caller x k₁ k') (hown : Own t k k₁) (hlog : k₁.log = k.log) :
    RecvPost heap t ep caller x k k' := by
  have hnet : k₁.net = k.net :=
    Net.ext (by simp [net, hown.ipc]) hown.sameSched.phase (by simp [net, hlog])
  obtain ⟨hc, hwire, hobj, hipc, hdec, hothers, hself⟩ := h
  rw [hnet] at hwire
  rw [hown.ipc] at hipc hdec
  refine ⟨hc, hwire, hobj.trans hown.objects, hipc, ?_, ?_, ?_⟩
  · simpa only [Grew, hlog] using hdec
  · intro i hi
    rw [hothers i hi, hown.getElem?_ne hi]
  · simpa only [Grew, hlog, hown.ipc] using hself

theorem sysRecv_spec (heap : Heap) (frame : Frame) (corrupt : Bool) (hc : k.Coherent)
    (hq : k.net.Queued ringCap) (hk : k.current = some t) (hx : k.tasks[t]? = some x)
    (hl : k.loaded = none) (hcall : Syscall.fromRaw frame.rax = some .recv) :
    ∃ k', k.sysRecv heap frame corrupt = .ok k' ∧ Reply heap t x frame k k' := by
  unfold sysRecv
  rcases endpointFor_spec frame.rdi.toUInt32 false hk hx with ⟨e, he⟩ | ⟨ep, obj, he, hauth⟩
  · simp only [he, ok_bind]
    exact reply_early heap frame corrupt _ hk hx _ _ _ _
  · simp only [he, ok_bind]
    by_cases hw : x.Writable frame.rsi
    · rw [writeUserMsg_of_writable _ hk hx hw]
      let mem := (Message.new 0).write x.mem frame.rsi
      have hown : Own t k (k.rewriteTask t x.caps mem) := own_rewriteTask x.caps mem
      have hnet : (k.rewriteTask t x.caps mem).net = k.net :=
        Net.ext rfl hown.sameSched.phase rfl
      have hhost : (x.rewrite x.caps mem).Hosts (.ring3 frame corrupt obj) := by
        simpa [Task.Hosts, Task.Writable, Task.reach, Task.rewrite, Function.comp_def] using hw
      obtain ⟨k', hrecv, hpost⟩ := recv_spec (k := k.rewriteTask t x.caps mem) heap
        (hown.sameSched.coherent hc) (hnet.symm ▸ hq) hk (rewriteTask_getElem? x.caps mem hx) hl ep
        (.ring3 frame corrupt obj) hhost
      exact ⟨k', hrecv, .received hcall ep obj corrupt hauth hw (hpost.of_own hown rfl)⟩
    · rw [writeUserMsg_of_not_writable _ hk hx hw]
      exact reply_early heap frame corrupt _ hk hx _ _ _ _

theorem sysRevoke_spec (handle : UInt32) (hk : k.current = some t) (hx : k.tasks[t]? = some x) :
    k.sysRevoke handle = .ok (.error .badHandle, k) ∨
    ∃ c objects, x.caps.resolve handle = some c ∧
      Obj.revoke c.object k.objects = (true, objects) ∧
      k.sysRevoke handle = .ok (.ok 0, { k with
        objects := objects
        stats := { k.stats with revocations := k.stats.revocations + 1 }
        log := .revoked c.object :: k.log }) := by
  simp only [sysRevoke, resolveCap_eq handle hk hx, ok_bind]
  cases hr : x.caps.resolve handle with
  | none => exact .inl rfl
  | some c =>
    dsimp only
    rcases Obj.revoke_cases c.object k.objects with ⟨hrev, -⟩ | ⟨slot, -, -, -, hrev⟩
    · left
      simp only [hrev, Bool.false_eq_true, if_false]
    · right
      refine ⟨c, _, rfl, hrev, ?_⟩
      simp only [hrev, if_true]
      rfl

theorem debugWrite_spec (ptr len : UInt64) (hk : k.current = some t) (hx : k.tasks[t]? = some x) :
    ∃ rc s c, k.debugWrite ptr len = .ok (rc, { k with stats := s, console := c }) := by
  unfold debugWrite
  split
  · exact ⟨_, _, _, rfl⟩
  · simp only [currentSpace_eq hk hx, ok_bind]
    cases x.space with
    | none => exact ⟨_, _, _, rfl⟩
    | some s =>
      dsimp only
      split
      · exact ⟨_, _, _, rfl⟩
      · split <;> exact ⟨_, _, _, rfl⟩

/-- The tail of the `Yield` syscall. -/
theorem yield_spec (heap : Heap) (frame : Frame) (corrupt : Bool) (hc : k.Coherent)
    (hk : k.current = some t) (hx : k.tasks[t]? = some x) (hl : k.loaded = none)
    (hcall : Syscall.fromRaw frame.rax = some .yield) :
    ∃ k', (k.reschedule (.yielded frame corrupt) >>= fun r => match r with
        | some k => .ok k
        | none => (k.swapGs).sysret frame corrupt (.ok 0)) = .ok k' ∧ Reply heap t x frame k k' := by
  rcases reschedule_spec (r := .yielded frame corrupt) hc hl rfl rfl (fun m => rfl) with
    hno | ⟨k', hyes, hc', hswd, hnet⟩
  · rw [hno]
    exact reply_early heap frame corrupt (.ok 0) hk hx _ _ _ _
  · rw [hyes]
    exact ⟨k', rfl, .quiet (.inl hcall) (.of_switched hc' (.inl hnet) hswd)⟩

theorem revoke_spec (heap : Heap) (frame : Frame) (corrupt : Bool) (hk : k.current = some t)
    (hx : k.tasks[t]? = some x) (hcall : Syscall.fromRaw frame.rax = some .revoke) :
    ∃ k', (k.sysRevoke frame.rdi.toUInt32 >>= fun p => p.2.sysret frame corrupt p.1) = .ok k' ∧
      Reply heap t x frame k k' := by
  rcases sysRevoke_spec frame.rdi.toUInt32 hk hx with hno | ⟨c, objects, hcap, hobj, hyes⟩
  · rw [hno]
    exact reply_early heap frame corrupt _ hk hx _ _ _ _
  · rw [hyes]
    exact ⟨_, sysret_eq frame corrupt _ (by exact hk),
      .revoked hcall c hcap hobj rfl rfl ⟨rfl, rfl, rfl, rfl, rfl⟩ _ rfl⟩

theorem debug_spec (heap : Heap) (frame : Frame) (corrupt : Bool) (hk : k.current = some t)
    (hx : k.tasks[t]? = some x) :
    ∃ k', (k.debugWrite frame.rdi frame.rsi >>= fun p => p.2.sysret frame corrupt p.1) = .ok k' ∧
      Reply heap t x frame k k' := by
  obtain ⟨rc, s, con, hwrite⟩ := debugWrite_spec frame.rdi frame.rsi hk hx
  rw [hwrite]
  exact reply_early heap frame corrupt rc hk hx _ _ _ _

theorem exit_quiet (hc : k.Coherent) (hq : k.net.Queued ringCap) (hk : k.current = some t)
    (hl : k.loaded = none) : ∃ k', k.exit = .ok k' ∧ Quiet k k' := by
  obtain ⟨x, hx, hrun, hmail, hfree⟩ := hc.current_task hk hl
  obtain ⟨k', hexit, hc', hswd, hnet⟩ := exit_spec hc hq hk hl
  exact ⟨k', hexit, .of_switched hc' (.inr (hnet ▸ .leave hfree)) hswd⟩

theorem exit_reply (heap : Heap) {frame : Frame} (hc : k.Coherent) (hq : k.net.Queued ringCap)
    (hk : k.current = some t) (hl : k.loaded = none)
    (hcall : Syscall.fromRaw frame.rax = some .exit) :
    ∃ k', k.exit = .ok k' ∧ Reply heap t x frame k k' := by
  obtain ⟨k', hexit, hquiet⟩ := exit_quiet hc hq hk hl
  exact ⟨k', hexit, .quiet (.inr hcall) hquiet⟩

/-- Bookkeeping before the call is served does not change what it does. -/
theorem Reply.of_counted {heap : Heap} {frame : Frame} {cpu : Cpu} {s : Stats} {arm : Bool}
    {k' : Machine} (h : Reply heap t x frame
      { k with cpu := cpu, stats := s, armNoncanonical := arm } k') :
    Reply heap t x frame k k' := by
  cases h with
  | early rc h => exact .early rc ⟨⟨h.own.task, h.own.bootstrap, h.own.current, h.own.prev,
      h.own.loaded, h.own.ipc, h.own.objects⟩, h.tasks, h.log⟩
  | quiet hcall h => exact .quiet hcall ⟨h.coherent, h.wire, h.kept, h.ipc, h.objects, h.grew⟩
  | sent hcall ep obj km hent h =>
    exact .sent hcall ep obj km ⟨hent.authorised, hent.carries, hent.empty⟩ ⟨h.coherent, h.wire,
      h.objects, h.ipc, h.grew, h.declined, h.authority, h.mail⟩
  | received hcall ep obj corrupt hauth hwrite h =>
    exact .received hcall ep obj corrupt hauth hwrite ⟨h.coherent, h.wire, h.objects, h.ipc,
      h.declined, h.others, h.own⟩
  | revoked hcall c hc hobj htasks hipc hsched rip hlog =>
    exact .revoked hcall c hc hobj htasks hipc ⟨hsched.tasks, hsched.bootstrap, hsched.current,
      hsched.prev, hsched.loaded⟩ rip hlog

theorem onSyscall_spec (heap : Heap) (frame : Frame) (hc : k.Coherent)
    (hq : k.net.Queued ringCap) (hk : k.current = some t) (hx : k.tasks[t]? = some x)
    (hl : k.loaded = none) :
    ∃ k', k.onSyscall heap frame = .ok k' ∧ Reply heap t x frame k k' := by
  have hsame : ∀ cpu s arm,
      SameSched k { k with cpu := cpu, stats := s, armNoncanonical := arm } :=
    fun cpu s arm => ⟨rfl, rfl, rfl, rfl, rfl⟩
  have hcall : ∀ (f : Machine → Except Panic Machine) cpu s arm,
      (∃ k', f { k with cpu := cpu, stats := s, armNoncanonical := arm } = .ok k' ∧
        Reply heap t x frame { k with cpu := cpu, stats := s, armNoncanonical := arm } k') →
      ∃ k', f { k with cpu := cpu, stats := s, armNoncanonical := arm } = .ok k' ∧
        Reply heap t x frame k k' := by
    rintro f cpu s arm ⟨k', hf, h⟩
    exact ⟨k', hf, h.of_counted⟩
  simp only [onSyscall]
  cases hraw : Syscall.fromRaw frame.rax with
  | none => exact reply_early heap frame _ _ hk hx _ _ _ _
  | some call =>
    cases call with
    | yield =>
      exact hcall (fun k => k.reschedule (.yielded frame _) >>= fun r => match r with
          | some k => .ok k
          | none => (k.swapGs).sysret frame _ (.ok 0)) _ _ _
        (yield_spec heap frame _ ((hsame _ _ _).coherent hc) hk hx hl hraw)
    | send =>
      exact hcall (fun k => k.sysSend frame _) _ _ _
        (sysSend_spec heap frame _ ((hsame _ _ _).coherent hc) hq hk hx hl hraw)
    | recv =>
      exact hcall (fun k => k.sysRecv heap frame _) _ _ _
        (sysRecv_spec heap frame _ ((hsame _ _ _).coherent hc) hq hk hx hl hraw)
    | exit =>
      exact hcall exit _ _ _
        (exit_reply heap ((hsame _ _ _).coherent hc) hq hk hl hraw)
    | revoke =>
      exact hcall (fun k => k.sysRevoke frame.rdi.toUInt32 >>= fun p =>
          p.2.sysret frame _ p.1) _ _ _ (revoke_spec heap frame _ hk hx hraw)
    | debugWrite =>
      exact hcall (fun k => k.debugWrite frame.rdi frame.rsi >>= fun p =>
          p.2.sysret frame _ p.1) _ _ _ (debug_spec heap frame _ hk hx)

end Machine

end StarOs.Kernel
