import StarOs.Kernel.Endpoint

/-! The kernel's state on one core and the scheduler over it. A task's saved
context is the continuation its next dispatch runs, so a context switch loads a
continuation and stops; `resume` in the machine runs it. `log` is a history
variable: what the endpoints decided and what came back, newest first. -/

namespace StarOs.Kernel

/-- The part of the syscall frame the handler reads or rewrites. -/
structure Frame where
  rax : UInt64
  rdi : UInt64
  rsi : UInt64
  rip : UInt64
  deriving DecidableEq

/-- Who waits for an `ipc` call to return: kernel code, or the syscall stub with
its frame, whether the return address is to be corrupted, and the object
reference that authorised the call. -/
inductive Caller where
  | thread
  | ring3 (frame : Frame) (corrupt : Bool) (via : ObjectRef)
  deriving DecidableEq

/-- The object reference the call went through, when a capability was involved. -/
def Caller.via : Caller → Option ObjectRef
  | .thread => none
  | .ring3 _ _ r => some r

/-- Where a context resumes when it is loaded. -/
inductive Resume where
  /-- a fresh task: the trampoline planted at spawn -/
  | trampoline
  /-- in `on_irq_epilogue`, after `reschedule` -/
  | preempted
  /-- in the `Yield` syscall, after `reschedule` -/
  | yielded (frame : Frame) (corrupt : Bool)
  /-- in `ipc::send`, after `block_current` -/
  | sendParked (ep : Fin numEndpoints) (caller : Caller)
  /-- in `ipc::recv`, inside `block_for_message` -/
  | recvParked (ep : Fin numEndpoints) (caller : Caller)
  /-- in `start`'s loop -/
  | inStart
  /-- in `exit`, which is never resumed -/
  | exited
  deriving DecidableEq

/-- A `CpuContext`: zeroed, saved and not loaded since, or loaded. -/
inductive Context where
  | empty
  | saved (r : Resume)
  | loaded
  deriving DecidableEq

/-- `State`. -/
inductive State where
  | ready | running | blocked | dead
  deriving DecidableEq

/-- A ring-3 address space as the syscall paths use it: its root and entry, the
answer of `range_ok` for a pointer, a length and a write flag, the words behind
it, and the frames its teardown returns. -/
structure UserSpace where
  root : UInt64
  entry : UInt64
  rangeOk : UInt64 → UInt64 → Bool → Bool
  mem : UInt64 → UInt64
  frames : UInt64

/-- The byte at `a`. -/
def UserSpace.byte (s : UserSpace) (a : UInt64) : UInt8 :=
  ((s.mem (a - a % 8)) >>> (8 * (a % 8))).toUInt8

/-- `Task`. `stack` is the number of words it still holds. -/
structure Task where
  ctx : Context
  stack : ℕ
  kernelStackTop : UInt64
  cr3 : UInt64
  space : Option UserSpace
  caps : CapTable
  mailbox : Option KMessage
  state : State

/-- `STACK_WORDS`. -/
def stackWords : ℕ := 4096

/-- The processor registers a switch writes, and whether the per-core block is in
`KERNEL_GS_BASE`, where ordinary ring-0 code expects it. -/
structure Cpu where
  cr3 : UInt64
  rsp0 : UInt64
  kernelRsp : UInt64
  gsOrdinary : Bool
  deriving DecidableEq

/-- The counters. -/
structure Stats where
  switches : UInt64
  preemptions : UInt64
  yields : UInt64
  blocks : UInt64
  wakeups : UInt64
  diedBlocked : UInt64
  reapedStacks : UInt64
  reapedWords : UInt64
  reapedSpaces : UInt64
  reapedFrames : UInt64
  delivered : UInt64
  buffered : UInt64
  sendBlocks : Fin numEndpoints → UInt64
  recvBlocks : UInt64
  capsMoved : UInt64
  sent : UInt64
  received : UInt64
  yieldCalls : UInt64
  syscalls : UInt64
  refused : UInt64
  bytesWritten : UInt64
  revocations : UInt64

/-- Every counter starts at zero. -/
def Stats.zero : Stats :=
  ⟨0, 0, 0, 0, 0, 0, 0, 0, 0, 0, 0, 0, fun _ => 0, 0, 0, 0, 0, 0, 0, 0, 0, 0⟩

/-- What the history variable records. -/
inductive Event where
  /-- a send was accepted on `ep` under the lock -/
  | sendAccepted (t : ℕ) (ep : Fin numEndpoints) (km : KMessage) (via : Option ObjectRef)
  /-- a receive was accepted on `ep` under the lock -/
  | recvAccepted (t : ℕ) (ep : Fin numEndpoints) (via : Option ObjectRef)
  /-- `ipc::send` returned -/
  | sendReturned (t : ℕ) (result : Except KError Unit)
  /-- `ipc::recv` returned -/
  | recvReturned (t : ℕ) (result : Except KError KMessage)
  /-- a syscall went back to ring 3 with this result and return address -/
  | sysret (t : ℕ) (rc : Rc) (rip : UInt64)
  /-- a task was spawned holding these capabilities -/
  | spawned (t : ℕ) (grants : List Cap)
  /-- an object was created, or revoked -/
  | created (r : ObjectRef) (object : Object)
  | revoked (r : ObjectRef)

/-- The kernel on the boot core. `loaded` is the continuation the last context
switch loaded and nobody has run yet; with none, the core runs the current task's
own code, or the bootstrap's. -/
structure Machine where
  tasks : List Task
  bootstrap : Context
  current : Option ℕ
  prev : Option ℕ
  needResched : Bool
  kernelRoot : UInt64
  ipc : Fin numEndpoints → Endpoint
  objects : Slots
  cpu : Cpu
  stats : Stats
  armNoncanonical : Bool
  console : List (List UInt8)
  loaded : Option Resume
  log : List Event

/-- A panic, or a context that would run on a stack already in use. -/
inductive Panic where
  | indexOutOfBounds
  | blockedOutsideTask
  | ipcOutsideTask
  | receiverWokenWithoutMessage
  | staleContext
  | unreachable
  deriving DecidableEq

@[simp] theorem ok_bind {α β : Type} (a : α) (f : α → Except Panic β) :
    (Except.ok a >>= f) = f a := rfl

namespace Machine

/-- Before the first spawn, in the kernel's tree at `root`. -/
def init (root : UInt64) : Machine where
  tasks := []
  bootstrap := .empty
  current := none
  prev := none
  needResched := false
  kernelRoot := 0
  ipc := fun _ => .new
  objects := []
  cpu := ⟨root, 0, 0, true⟩
  stats := .zero
  armNoncanonical := false
  console := []
  loaded := none
  log := []

/-- `sched.tasks[i]`, read. -/
def task (i : ℕ) (k : Machine) : Except Panic Task :=
  match k.tasks[i]? with
  | some t => .ok t
  | none => .error .indexOutOfBounds

/-- `sched.tasks[i]`, updated. -/
def onTask (i : ℕ) (f : Task → Task) (k : Machine) : Except Panic Machine :=
  if i < k.tasks.length then .ok { k with tasks := k.tasks.modify i f }
  else .error .indexOutOfBounds

/-- Bump a counter. -/
def count (f : Stats → Stats) (k : Machine) : Machine := { k with stats := f k.stats }

/-- Record an event. -/
def record (ev : Event) (k : Machine) : Machine := { k with log := ev :: k.log }

def isReady (k : Machine) (i : ℕ) : Bool :=
  match k.tasks[i]? with
  | some t => t.state == .ready
  | none => false

/-- `Scheduler::first_ready`. -/
def firstReady (k : Machine) : Option ℕ := (List.range k.tasks.length).find? k.isReady

/-- `Scheduler::pick_next`. -/
def pickNext (prev : ℕ) (k : Machine) : Option ℕ :=
  let n := k.tasks.length
  if n = 0 then none
  else ((List.range' 1 n).map (fun off => (prev + off) % n)).find? k.isReady

/-- `enter`. -/
def enter (top cr3 : Option UInt64) (k : Machine) : Machine :=
  let k := match top with
    | some top => { k with cpu := { k.cpu with rsp0 := top, kernelRsp := top } }
    | none => k
  match cr3 with
  | none => k
  | some cr3 => if k.cpu.cr3 ≠ cr3 then { k with cpu := { k.cpu with cr3 := cr3 } } else k

/-- `swap_gs`. -/
def swapGs (k : Machine) : Machine :=
  { k with cpu := { k.cpu with gsOrdinary := !k.cpu.gsOrdinary } }

/-- Save the running context, of a task or the bootstrap's. -/
def saveContext (who : Option ℕ) (r : Resume) (k : Machine) : Except Panic Machine :=
  match who with
  | some i => k.onTask i fun t => { t with ctx := .saved r }
  | none => .ok { k with bootstrap := .saved r }

/-- Load a context and run from there. -/
def loadContext (who : Option ℕ) (k : Machine) : Except Panic Machine :=
  match who with
  | some i => do
    let t ← k.task i
    match t.ctx with
    | .saved r => do
      let k ← k.onTask i fun t => { t with ctx := .loaded }
      .ok { k with loaded := some r }
    | _ => .error .staleContext
  | none =>
    match k.bootstrap with
    | .saved r => .ok { k with bootstrap := .loaded, loaded := some r }
    | _ => .error .staleContext

/-- `context_switch`. -/
def contextSwitch (prev : Option ℕ) (r : Resume) (next : Option ℕ) (k : Machine) :
    Except Panic Machine := do
  let k ← k.saveContext prev r
  k.loadContext next

/-- The switch into `next` that `start`, `reschedule`, `park_and_switch` and
`exit` share: it becomes the running task, `prev` is left for it to settle, and
its stack, tree and context are loaded. -/
def dispatch (prev : Option ℕ) (r : Resume) (next : ℕ) (k : Machine) : Except Panic Machine := do
  let k ← k.onTask next fun t => { t with state := .running }
  let k := { k with current := some next, prev := prev }
  let t ← k.task next
  let k := k.enter (some t.kernelStackTop) (some t.cr3)
  let k := k.count fun s => { s with switches := s.switches + 1 }
  k.contextSwitch prev r (some next)

/-- The switch back to the bootstrap context when nothing is runnable. -/
def toBootstrap (prev : ℕ) (r : Resume) (k : Machine) : Except Panic Machine :=
  let k := { k with current := none, prev := some prev }
  let k := k.enter none (some k.kernelRoot)
  let k := k.count fun s => { s with switches := s.switches + 1 }
  k.contextSwitch (some prev) r none

/-- The switch that cannot decline. -/
def switchAway (prev : ℕ) (r : Resume) (k : Machine) : Except Panic Machine :=
  match k.pickNext prev with
  | some next => k.dispatch (some prev) r next
  | none => k.toBootstrap prev r

/-- `spawn_with`, in the space a ring-3 task owns or none. `stack` is the top of the
stack allocated, if the heap served it and the slot. -/
def spawnWith (stack : Option UInt64) (space : Option UserSpace) (caps : CapTable)
    (k : Machine) : Machine :=
  match stack with
  | none => k
  | some top =>
    let task : Task :=
      { ctx := .saved .trampoline
        stack := stackWords
        kernelStackTop := top
        cr3 := (space.map UserSpace.root).getD k.cpu.cr3
        space := space
        caps := caps
        mailbox := none
        state := .ready }
    { k with tasks := k.tasks ++ [task] }

/-- One turn of `start`'s loop. -/
def startLoop (k : Machine) : Except Panic Machine :=
  match k.firstReady with
  | some first => k.dispatch none .inStart first
  | none => .ok { k with loaded := none }

/-- `start`, up to the first switch. -/
def start (k : Machine) : Except Panic Machine :=
  startLoop { k with kernelRoot := k.cpu.cr3 }

/-- `reschedule`, up to the switch; none is its answer `false`. -/
def reschedule (r : Resume) (k : Machine) : Except Panic (Option Machine) :=
  match k.current with
  | none => .ok none
  | some prev =>
    match k.pickNext prev with
    | none => .ok none
    | some next => do
      let k ← k.onTask prev fun t =>
        if t.state = .running then { t with state := .ready } else t
      let k ← k.dispatch (some prev) r next
      .ok (some k)

/-- `request_resched`. -/
def requestResched (k : Machine) : Machine := { k with needResched := true }

/-- `on_irq_epilogue`, up to the switch. -/
def onIrqEpilogue (k : Machine) : Except Panic Machine :=
  let need := k.needResched
  let k := { k with needResched := false }
  if need then do
    match ← k.reschedule .preempted with
    | some k => .ok k
    | none => .ok k
  else .ok k

/-- `park_and_switch`, up to the switch. -/
def parkAndSwitch (r : Resume) (k : Machine) : Except Panic Machine :=
  match k.current with
  | none => .error .blockedOutsideTask
  | some prev => do
    let k ← k.onTask prev fun t => { t with state := .blocked }
    let k := k.count fun s => { s with blocks := s.blocks + 1 }
    k.switchAway prev r

/-- `unblock`. -/
def unblock (i : ℕ) (k : Machine) : Except Panic Machine := do
  let t ← k.task i
  if t.state = .blocked then
    let k ← k.onTask i fun t => { t with state := .ready }
    .ok (k.count fun s => { s with wakeups := s.wakeups + 1 })
  else .ok k

/-- `deliver`: the mailbox first, the state second. -/
def deliver (i : ℕ) (km : KMessage) (k : Machine) : Except Panic Machine := do
  let k ← k.onTask i fun t => { t with mailbox := some km }
  k.unblock i

/-- `current_id`. -/
def currentId (k : Machine) : Except Panic ℕ :=
  match k.current with
  | some t => .ok t
  | none => .error .ipcOutsideTask

/-- `current_space`. -/
def currentSpace (k : Machine) : Except Panic (Option UserSpace) :=
  match k.current with
  | none => .ok none
  | some i => do
    let t ← k.task i
    .ok t.space

/-- `resolve_cap`. -/
def resolveCap (handle : UInt32) (k : Machine) : Except Panic (Option Cap) :=
  match k.current with
  | none => .ok none
  | some i => do
    let t ← k.task i
    .ok (t.caps.resolve handle)

/-- `install_cap_current`. -/
def installCapCurrent (heap : Heap) (cap : Cap) (k : Machine) :
    Except Panic (Option UInt32 × Machine) :=
  match k.current with
  | none => .ok (none, k)
  | some i => do
    let t ← k.task i
    match t.caps.install (heap.serves (t.caps.length + 1)) cap with
    | none => .ok (none, k)
    | some (h, caps) => do
      let k ← k.onTask i fun t => { t with caps := caps }
      .ok (some h, k)

/-- `ipc::forget_task`: how many endpoints held the task. -/
def forgetTask (i : ℕ) (k : Machine) : ℕ × Machine :=
  ((List.finRange numEndpoints).countP fun ep => ((k.ipc ep).removeWaiter i).1,
    { k with ipc := fun ep => ((k.ipc ep).removeWaiter i).2 })

/-- `exit`, up to the switch. -/
def exit (k : Machine) : Except Panic Machine := do
  let me ← k.currentId
  let (queues, k) := k.forgetTask me
  let k := k.count fun s => if queues > 0 then { s with diedBlocked := s.diedBlocked + 1 } else s
  let k ← k.onTask me fun t => { t with state := .dead }
  k.switchAway me .exited

/-- What `post_switch` does to the task switched away from: a dead one gives up
its stack, its space, its table and its mailbox. -/
def reap (t : Task) : Task :=
  if t.state = .dead then { t with stack := 0, space := none, caps := [], mailbox := none } else t

/-- `post_switch`. -/
def postSwitch (k : Machine) : Except Panic Machine :=
  let prev := k.prev
  let k := { k with prev := none }
  match prev with
  | none => .ok k
  | some i => do
    let t ← k.task i
    let k ← k.onTask i reap
    let k := k.count fun s =>
      if t.state = .dead ∧ t.stack ≠ 0 then { s with
        reapedStacks := s.reapedStacks + 1
        reapedWords := s.reapedWords + UInt64.ofNat t.stack }
      else s
    .ok (k.count fun s =>
      match t.space with
      | some space =>
        if t.state = .dead then { s with
          reapedSpaces := s.reapedSpaces + 1
          reapedFrames := s.reapedFrames + space.frames }
        else s
      | none => s)

section

variable {k : Machine} {i j : ℕ} {t : Task}

theorem task_eq (h : k.tasks[i]? = some t) : k.task i = .ok t := by simp [task, h]

theorem onTask_eq (f : Task → Task) (h : i < k.tasks.length) :
    k.onTask i f = .ok { k with tasks := k.tasks.modify i f } := by
  simp [onTask, h]

theorem lt_of_getElem? (h : k.tasks[i]? = some t) : i < k.tasks.length :=
  (List.getElem?_eq_some_iff.mp h).1

theorem currentId_eq (h : k.current = some i) : k.currentId = .ok i := by simp [currentId, h]

theorem currentSpace_eq (h : k.current = some i) (ht : k.tasks[i]? = some t) :
    k.currentSpace = .ok t.space := by
  simp [currentSpace, h, task_eq ht]

theorem resolveCap_eq (handle : UInt32) (h : k.current = some i) (ht : k.tasks[i]? = some t) :
    k.resolveCap handle = .ok (t.caps.resolve handle) := by
  simp [resolveCap, h, task_eq ht]

theorem isReady_iff : k.isReady i = true ↔ ∃ t, k.tasks[i]? = some t ∧ t.state = .ready := by
  cases h : k.tasks[i]? <;> simp [isReady, h]

theorem firstReady_some (h : k.firstReady = some i) :
    ∃ t, k.tasks[i]? = some t ∧ t.state = .ready :=
  isReady_iff.mp (List.find?_some h)

theorem pickNext_some (h : k.pickNext j = some i) :
    ∃ t, k.tasks[i]? = some t ∧ t.state = .ready := by
  simp only [pickNext] at h
  split at h
  · cases h
  · exact isReady_iff.mp (List.find?_some h)

/-- The registers after `enter`. -/
theorem enter_eq (top cr3 : UInt64) (k : Machine) : k.enter (some top) (some cr3) =
    { k with cpu := { k.cpu with cr3 := cr3, rsp0 := top, kernelRsp := top } } := by
  by_cases h : k.cpu.cr3 = cr3 <;> simp [enter, h]

theorem enter_none_eq (cr3 : UInt64) (k : Machine) : k.enter none (some cr3) =
    { k with cpu := { k.cpu with cr3 := cr3 } } := by
  by_cases h : k.cpu.cr3 = cr3
  · subst h
    simp [enter]
  · simp [enter, h]

end

end Machine

end StarOs.Kernel
