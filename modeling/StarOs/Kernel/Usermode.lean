import StarOs.Kernel.Sched
import StarOs.Library.Run

/-! The calls: `ipc::send` and `ipc::recv`, the copies to and from ring 3, and the
syscall dispatch. A call that parks stops at its context switch; the rest of it
is the continuation its `Resume` names, so each call is split there and its
second half takes the caller to answer. -/

namespace StarOs.Kernel

/-- `DEBUG_WRITE_MAX`. -/
def debugWriteMax : UInt64 := 256

/-- `NONCANONICAL_RIP`. -/
def noncanonicalRip : UInt64 := 0x0000800000000000

/-- `size_of::<Message>()`. -/
def messageSize : UInt64 := 48

namespace Machine

/-- The way back through the stub: the result in `RAX`, the return address
corrupted when armed, and the stub's own `swapgs`. -/
def sysret (frame : Frame) (corrupt : Bool) (rc : Rc) (k : Machine) : Except Panic Machine := do
  let me ← k.currentId
  let rip := if corrupt then noncanonicalRip else frame.rip
  .ok ((k.swapGs).record (.sysret me rc rip))

/-- `write_user_msg`; none is its answer `false`. -/
def writeUserMsg (ptr : UInt64) (msg : Message) (k : Machine) :
    Except Panic (Option Machine) := do
  if ptr % 8 ≠ 0 then .ok none
  else
    match ← k.currentSpace with
    | none => .ok none
    | some space =>
      if !space.rangeOk ptr messageSize true then .ok none
      else do
        let me ← k.currentId
        let k ← k.onTask me fun t => { t with space := some { space with mem := msg.write space.mem ptr } }
        .ok (some k)

/-- `read_user_msg`. -/
def readUserMsg (ptr : UInt64) (k : Machine) : Except Panic (Option Message) := do
  if ptr % 8 ≠ 0 then .ok none
  else
    match ← k.currentSpace with
    | none => .ok none
    | some space =>
      if !space.rangeOk ptr messageSize false then .ok none
      else .ok (some (Message.read space.mem ptr))

/-- What follows `ipc::send` in its caller: nothing, or the tail of the `Send`
syscall. -/
def returnSend (caller : Caller) (result : Except KError Unit) (k : Machine) :
    Except Panic Machine := do
  let me ← k.currentId
  let k := k.record (.sendReturned me result)
  match caller with
  | .thread => .ok k
  | .ring3 frame corrupt _ =>
    let rc : Rc := match result with
      | .ok () => .ok 0
      | .error e => .error e
    (k.swapGs).sysret frame corrupt rc

/-- The tail of `sys_recv` once a message is there: the capability is installed
at a fresh handle, and the message written out naming it. -/
def finishRecv (heap : Heap) (ptr : UInt64) (km : KMessage) (k : Machine) :
    Except Panic (Rc × Machine) := do
  let (handle, k) ← match km.cap with
    | some cap => do
      let (h, k) ← k.installCapCurrent heap cap
      .ok (h, k)
    | none => .ok (some 0, k)
  match handle with
  | none => .ok (.error .outOfResources, k)
  | some h =>
    match ← k.writeUserMsg ptr { km.msg with cap := h } with
    | some k => .ok (.ok 0, k)
    | none => .ok (.error .invalidArgument, k)

/-- What follows `ipc::recv` in its caller: nothing, or the tail of the `Recv`
syscall. -/
def returnRecv (heap : Heap) (caller : Caller) (result : Except KError KMessage) (k : Machine) :
    Except Panic Machine := do
  let me ← k.currentId
  let k := k.record (.recvReturned me result)
  match caller with
  | .thread => .ok k
  | .ring3 frame corrupt _ => do
    let (rc, k) ← match result with
      | .ok km => k.finishRecv heap frame.rsi km
      | .error e => .ok (.error e, k)
    (k.swapGs).sysret frame corrupt rc

/-- `ipc::send` on an endpoint that exists. -/
def sendOn (ep : Fin numEndpoints) (km : KMessage) (caller : Caller) (k : Machine) :
    Except Panic Machine := do
  let me ← k.currentId
  let (action, e) := (k.ipc ep).decideSend me km
  let k := { k with ipc := Function.update k.ipc ep e }
  let k := if action ≠ .full then k.record (.sendAccepted me ep km caller.via) else k
  let k := k.count fun s =>
    if km.cap.isSome ∧ action ≠ .full then { s with capsMoved := s.capsMoved + 1 } else s
  match action with
  | .deliver w => do
    let k := k.count fun s => { s with delivered := s.delivered + 1, sent := s.sent + 1 }
    let k ← k.deliver w km
    k.returnSend caller (.ok ())
  | .buffered =>
    let k := k.count fun s => { s with buffered := s.buffered + 1, sent := s.sent + 1 }
    k.returnSend caller (.ok ())
  | .block =>
    let k := k.count fun s =>
      { s with sendBlocks := Function.update s.sendBlocks ep (s.sendBlocks ep + 1) }
    k.parkAndSwitch (.sendParked ep caller)
  | .full => k.returnSend caller (.error .outOfResources)

/-- `ipc::send`. -/
def send (ep : ℕ) (km : KMessage) (caller : Caller) (k : Machine) : Except Panic Machine :=
  if h : ep < numEndpoints then k.sendOn ⟨ep, h⟩ km caller
  else k.returnSend caller (.error .invalidArgument)

/-- `ipc::recv` on an endpoint that exists. -/
def recvOn (heap : Heap) (ep : Fin numEndpoints) (caller : Caller) (k : Machine) :
    Except Panic Machine := do
  let me ← k.currentId
  let (action, e) := (k.ipc ep).decideRecv me
  let k := { k with ipc := Function.update k.ipc ep e }
  let k := if action ≠ .full then k.record (.recvAccepted me ep caller.via) else k
  match action with
  | .got km =>
    let k := k.count fun s => { s with received := s.received + 1 }
    k.returnRecv heap caller (.ok km)
  | .wakeSender km tid => do
    let k := k.count fun s => { s with received := s.received + 1 }
    let k ← k.unblock tid
    k.returnRecv heap caller (.ok km)
  | .block =>
    let k := k.count fun s => { s with recvBlocks := s.recvBlocks + 1 }
    k.parkAndSwitch (.recvParked ep caller)
  | .full => k.returnRecv heap caller (.error .outOfResources)

/-- `ipc::recv`. -/
def recv (heap : Heap) (ep : ℕ) (caller : Caller) (k : Machine) : Except Panic Machine :=
  if h : ep < numEndpoints then k.recvOn heap ⟨ep, h⟩ caller
  else k.returnRecv heap caller (.error .invalidArgument)

/-- The end of `block_for_message`: the mailbox is taken. -/
def takeMailbox (k : Machine) : Except Panic (KMessage × Machine) := do
  let me ← k.currentId
  let t ← k.task me
  match t.mailbox with
  | none => .error .receiverWokenWithoutMessage
  | some km => do
    let k ← k.onTask me fun t => { t with mailbox := none }
    .ok (km, k)

/-- `endpoint_for`: the endpoint a handle names and the reference it went through. -/
def endpointFor (handle : UInt32) (wantSend : Bool) (k : Machine) :
    Except Panic (Except KError (ℕ × ObjectRef)) := do
  match ← k.resolveCap handle with
  | some (.endpoint obj send recv) =>
    if (wantSend && !send) || (!wantSend && !recv) then .ok (.error .permissionDenied)
    else
      match Obj.get k.objects obj with
      | some (.endpoint id) => .ok (.ok (id, obj))
      | none => .ok (.error .badHandle)
  | none => .ok (.error .badHandle)

/-- `sys_send`. The first answers come back before `ipc::send` is reached. -/
def sysSend (frame : Frame) (corrupt : Bool) (k : Machine) : Except Panic Machine := do
  match ← k.endpointFor frame.rdi.toUInt32 true with
  | .error e =>
    let k := k.count fun s => { s with refused := s.refused + 1 }
    (k.swapGs).sysret frame corrupt (.error e)
  | .ok (id, obj) =>
    match ← k.readUserMsg frame.rsi with
    | none => (k.swapGs).sysret frame corrupt (.error .invalidArgument)
    | some msg =>
      if msg.cap = 0 then k.send id ⟨msg, none⟩ (.ring3 frame corrupt obj)
      else
        match ← k.resolveCap msg.cap with
        | some c => k.send id ⟨msg, some c⟩ (.ring3 frame corrupt obj)
        | none => (k.swapGs).sysret frame corrupt (.error .badHandle)

/-- `sys_recv`. The destination is checked, by writing to it, before the call can
block. -/
def sysRecv (heap : Heap) (frame : Frame) (corrupt : Bool) (k : Machine) :
    Except Panic Machine := do
  match ← k.endpointFor frame.rdi.toUInt32 false with
  | .error e =>
    let k := k.count fun s => { s with refused := s.refused + 1 }
    (k.swapGs).sysret frame corrupt (.error e)
  | .ok (id, obj) =>
    match ← k.writeUserMsg frame.rsi (Message.new 0) with
    | none => (k.swapGs).sysret frame corrupt (.error .invalidArgument)
    | some k => k.recv heap id (.ring3 frame corrupt obj)

/-- `sys_revoke`. -/
def sysRevoke (handle : UInt32) (k : Machine) : Except Panic (Rc × Machine) := do
  match ← k.resolveCap handle with
  | some cap =>
    let (done, objects) := Obj.revoke cap.object k.objects
    let k := { k with objects := objects }
    if done then
      let k := k.count fun s => { s with revocations := s.revocations + 1 }
      .ok (.ok 0, k.record (.revoked cap.object))
    else .ok (.error .badHandle, k)
  | none => .ok (.error .badHandle, k)

/-- `debug_write`. -/
def debugWrite (ptr len : UInt64) (k : Machine) : Except Panic (Rc × Machine) := do
  if len > debugWriteMax then .ok (.error .invalidArgument, k)
  else
    match ← k.currentSpace with
    | none => .ok (.error .notSupported, k)
    | some space =>
      if !space.rangeOk ptr len false then .ok (.error .invalidArgument, k)
      else
        let bytes := (List.range len.toNat).map fun i => space.byte (ptr + UInt64.ofNat i)
        if (ByteArray.mk bytes.toArray).validateUTF8 then
          let k := { k with console := k.console ++ [bytes] }
          .ok (.ok len, k.count fun s => { s with bytesWritten := s.bytesWritten + len })
        else .ok (.error .invalidArgument, k)

/-- `on_syscall`, behind the stub's first `swapgs`. -/
def onSyscall (heap : Heap) (frame : Frame) (k : Machine) : Except Panic Machine := do
  let k := k.swapGs
  let k := k.count fun s => { s with syscalls := s.syscalls + 1 }
  let corrupt := k.armNoncanonical
  let k := { k with armNoncanonical := false }
  match Syscall.fromRaw frame.rax with
  | some .yield =>
    let k := k.count fun s => { s with yieldCalls := s.yieldCalls + 1 }
    let k := k.swapGs
    match ← k.reschedule (.yielded frame corrupt) with
    | some k => .ok k
    | none => (k.swapGs).sysret frame corrupt (.ok 0)
  | some .exit => (k.swapGs).exit
  | some .debugWrite => do
    let (rc, k) ← k.debugWrite frame.rdi frame.rsi
    k.sysret frame corrupt rc
  | some .send => (k.swapGs).sysSend frame corrupt
  | some .recv => (k.swapGs).sysRecv heap frame corrupt
  | some .revoke => do
    let (rc, k) ← k.sysRevoke frame.rdi.toUInt32
    k.sysret frame corrupt rc
  | none =>
    let k := k.count fun s => { s with refused := s.refused + 1 }
    k.sysret frame corrupt (.error .noSuchSyscall)

/-- Run the continuation the last context switch loaded. Every one of them begins
with `post_switch`. -/
def resume (heap : Heap) (k : Machine) : Except Panic Machine :=
  match k.loaded with
  | none => .error .staleContext
  | some r => do
    let k := { k with loaded := none }
    match r with
    | .trampoline => k.postSwitch
    | .preempted => do
      let k ← k.postSwitch
      .ok (k.count fun s => { s with preemptions := s.preemptions + 1 })
    | .yielded frame corrupt => do
      let k ← k.postSwitch
      let k := k.count fun s => { s with yields := s.yields + 1 }
      (k.swapGs).sysret frame corrupt (.ok 0)
    | .sendParked _ caller => do
      let k ← k.postSwitch
      let k := k.count fun s => { s with sent := s.sent + 1 }
      k.returnSend caller (.ok ())
    | .recvParked _ caller => do
      let k ← k.postSwitch
      let (km, k) ← k.takeMailbox
      let k := k.count fun s => { s with received := s.received + 1 }
      k.returnRecv heap caller (.ok km)
    | .inStart => do
      let k := k.enter none (some k.kernelRoot)
      let k ← k.postSwitch
      k.startLoop
    | .exited => .error .unreachable

/-- One thing that can happen on the core. -/
inductive Act where
  /-- kernel code spawns a task with these grants, in order -/
  | spawn (stack : Option UInt64) (space : Option UserSpace) (grants : List Cap)
  /-- the bootstrap context calls `start` -/
  | start
  /-- the timer interrupts the current task -/
  | timer
  /-- the current ring-3 task executes `syscall` -/
  | syscall (frame : Frame)
  /-- the current task calls `ipc::send`, or `ipc::recv`, from kernel code -/
  | send (ep : ℕ) (km : KMessage)
  | recv (ep : ℕ)
  /-- the current task returns from its entry, or faults -/
  | exit
  /-- the current ring-3 task writes its own memory -/
  | store (addr value : UInt64)
  /-- kernel code creates, or revokes, an object -/
  | create (object : Object)
  | revoke (r : ObjectRef)
  /-- the boot self-test arms the corruption of the next return -/
  | arm
  /-- the continuation just loaded runs -/
  | resume

/-- The table `selftest` builds for a task: one `install` per grant. -/
def grantTable (heap : Heap) : List Cap → CapTable → Option CapTable
  | [], table => some table
  | cap :: grants, table =>
    match table.install (heap.serves (table.length + 1)) cap with
    | some (_, table) => grantTable heap grants table
    | none => none

/-- Spawn a task holding the grants on top of `empty_caps`, or give up where the
heap refuses. -/
def spawnUser (heap : Heap) (stack : Option UInt64) (space : Option UserSpace)
    (grants : List Cap) (k : Machine) : Machine :=
  match grantTable heap grants emptyCaps with
  | none => k
  | some caps =>
    let k := if stack.isSome then k.record (.spawned k.tasks.length grants) else k
    k.spawnWith stack space caps

/-- What the core does. -/
def step (heap : Heap) (act : Act) (k : Machine) : Except Panic Machine :=
  match act with
  | .spawn stack space grants => .ok (k.spawnUser heap stack space grants)
  | .start => k.start
  | .timer => (k.requestResched).onIrqEpilogue
  | .syscall frame => k.onSyscall heap frame
  | .send ep km => k.send ep km .thread
  | .recv ep => k.recv heap ep .thread
  | .exit => k.exit
  | .store addr value =>
    match k.current with
    | none => .error .ipcOutsideTask
    | some me => k.onTask me fun t =>
        { t with space := t.space.map fun s => { s with mem := Function.update s.mem addr value } }
  | .create object =>
    let (r, objects) := Obj.create (heap.serves (k.objects.length + 1)) object k.objects
    let k := { k with objects := objects }
    match r with
    | some r => .ok (k.record (.created r object))
    | none => .ok k
  | .revoke r =>
    let (done, objects) := Obj.revoke r k.objects
    let k := { k with objects := objects }
    .ok (if done then k.record (.revoked r) else k)
  | .arm => .ok { k with armNoncanonical := true }
  | .resume => k.resume heap

/-- What can happen next: a loaded continuation runs before anything else, since
interrupts are masked; the bootstrap starts, tasks make calls, only a task with a
space is in ring 3, and it runs no kernel code of its own. -/
def Enabled (k : Machine) : Act → Prop
  | .resume => k.loaded.isSome
  | .start => k.loaded = none ∧ k.current = none
  | .syscall _ | .store _ _ => k.loaded = none ∧
      ∃ i t, k.current = some i ∧ k.tasks[i]? = some t ∧ t.space.isSome
  | .send _ _ | .recv _ | .exit => k.loaded = none ∧ k.current.isSome
  | .spawn _ _ _ => k.loaded = none ∧
      ∀ i t, k.current = some i → k.tasks[i]? = some t → t.space = none
  | .timer | .create _ | .revoke _ | .arm => k.loaded = none

instance (k : Machine) :
    Decidable (∃ i t, k.current = some i ∧ k.tasks[i]? = some t ∧ t.space.isSome) :=
  decidable_of_iff ((k.current.bind fun i => k.tasks[i]?).any fun t => t.space.isSome) (by
    simp only [Option.any_eq_true, Option.bind_eq_some_iff]
    grind)

instance (k : Machine) :
    Decidable (∀ i t, k.current = some i → k.tasks[i]? = some t → t.space = none) :=
  decidable_of_iff ((k.current.bind fun i => k.tasks[i]?).all fun t => t.space.isNone) (by
    simp only [Option.all_eq_true, Option.bind_eq_some_iff, Option.isNone_iff_eq_none]
    grind)

instance (k : Machine) : (act : Act) → Decidable (k.Enabled act)
  | .resume => inferInstanceAs (Decidable (k.loaded.isSome = true))
  | .start => inferInstanceAs (Decidable (k.loaded = none ∧ k.current = none))
  | .syscall _ | .store _ _ => inferInstanceAs (Decidable (k.loaded = none ∧
      ∃ i t, k.current = some i ∧ k.tasks[i]? = some t ∧ t.space.isSome))
  | .send _ _ | .recv _ | .exit =>
    inferInstanceAs (Decidable (k.loaded = none ∧ k.current.isSome = true))
  | .spawn _ _ _ => inferInstanceAs (Decidable (k.loaded = none ∧
      ∀ i t, k.current = some i → k.tasks[i]? = some t → t.space = none))
  | .timer | .create _ | .revoke _ | .arm => inferInstanceAs (Decidable (k.loaded = none))

/-- One enabled act, with the heap it finds. -/
def Move (k : Machine) (l : Heap × Act) (k' : Machine) : Prop :=
  k.Enabled l.2 ∧ k.step l.1 l.2 = .ok k'

/-- Runs of the core over the acts in `S`, each chosen freely among the enabled ones. -/
abbrev Run (S : Act → Prop) : Machine → Machine → Prop :=
  Library.Run Move fun l => S l.2

/-- The states of every run from boot. -/
def Reachable (k : Machine) : Prop := ∃ root, Run (fun _ => True) (init root) k

/-- Do the acts in order, or stop where one is not enabled. -/
def perform (heap : Heap) : List Act → Machine → Option Machine
  | [], k => some k
  | act :: acts, k =>
    if k.Enabled act then
      match k.step heap act with
      | .ok k => perform heap acts k
      | .error _ => none
    else none

theorem run_of_perform {S : Act → Prop} {heap : Heap} {acts : List Act} {k k' : Machine}
    (h : perform heap acts k = some k') (hS : ∀ act ∈ acts, S act) : Run S k k' := by
  induction acts generalizing k with
  | nil =>
    obtain rfl := Option.some.inj h
    exact .refl
  | cons act acts ih =>
    simp only [perform] at h
    split at h
    · rename_i he
      split at h
      · rename_i k₁ hs
        have hrest := ih h fun a ha => hS a (List.mem_cons_of_mem _ ha)
        exact .trans (.single (a := (heap, act)) (hS act List.mem_cons_self) ⟨he, hs⟩) hrest
      · cases h
    · cases h

theorem perform_append (heap : Heap) (acts : List Act) (act : Act) (k : Machine) :
    perform heap (acts ++ [act]) k = (perform heap acts k).bind fun k => perform heap [act] k := by
  induction acts generalizing k with
  | nil => rfl
  | cons a acts ih =>
    simp only [List.cons_append, perform]
    split
    · split
      · exact ih _
      · rfl
    · rfl

/-- The machine after these acts from boot, on a heap of eight slots. -/
def after (acts : List Act) : Machine := (perform ⟨8, by decide⟩ acts (init 0)).getD (init 0)

theorem run_after {S : Act → Prop} {acts : List Act}
    (h : (perform ⟨8, by decide⟩ acts (init 0)).isSome) (hS : ∀ act ∈ acts, S act) :
    Run S (init 0) (after acts) := by
  obtain ⟨k, hk⟩ := Option.isSome_iff_exists.mp h
  rw [after, hk]
  exact run_of_perform hk hS

theorem after_reachable {acts : List Act}
    (h : (perform ⟨8, by decide⟩ acts (init 0)).isSome) : Reachable (after acts) :=
  ⟨0, run_after h fun _ _ => trivial⟩

/-- The last act was enabled, and led where the run ends. -/
theorem step_after (acts : List Act) (act : Act)
    (h : (perform ⟨8, by decide⟩ (acts ++ [act]) (init 0)).isSome) :
    (after acts).Enabled act ∧
      (after acts).step ⟨8, by decide⟩ act = .ok (after (acts ++ [act])) := by
  obtain ⟨k', hk'⟩ := Option.isSome_iff_exists.mp h
  have hsplit := hk'
  rw [perform_append] at hsplit
  obtain ⟨k, hk, hlast⟩ := Option.bind_eq_some_iff.mp hsplit
  rw [after, after, hk, hk']
  simp only [perform] at hlast
  split at hlast
  · rename_i he
    split at hlast
    · rename_i k₁ hs
      obtain rfl := Option.some.inj hlast
      exact ⟨he, hs⟩
    · cases hlast
  · cases hlast

end Machine

end StarOs.Kernel
