import StarOs.Kernel.Tenure

/-! Where `GS` points. `swapgs` exchanges `GS_BASE` with `KERNEL_GS_BASE`, and the
per-core block is in one of them; `cpu_index` looks for it in `KERNEL_GS_BASE`. The
operations that swap or ask are listed for every act, in the order the source makes
them and up to its context switch, together with the points where the core changes
hands. -/

namespace StarOs.Kernel

open Library

/-- What happens to `GS`, or depends on it: a `swapgs`, a call of `cpu_index`; and the
moments it matters most: a syscall enters, ring 3 is entered, a context is left. -/
inductive GsOp where
  | swap | cpuIndex | entry | ring3 | away
  deriving DecidableEq

namespace GsOp

/-- The side of the swap each operation but `swap` finds; true is the ordinary one. -/
def sides : Bool → List GsOp → List (GsOp × Bool)
  | _, [] => []
  | b, .swap :: ops => sides (!b) ops
  | b, op :: ops => (op, b) :: sides b ops

/-- The side the operations end on. -/
def after : Bool → List GsOp → Bool
  | b, [] => b
  | b, .swap :: ops => after (!b) ops
  | b, _ :: ops => after b ops

/-- Everything is done on the ordinary side, and ends there. -/
def Clean (ops : List GsOp) : Prop := (∀ p ∈ sides true ops, p.2 = true) ∧ after true ops = true

variable {ops ops' : List GsOp}

theorem sides_append (b : Bool) (ops ops' : List GsOp) :
    sides b (ops ++ ops') = sides b ops ++ sides (after b ops) ops' := by
  induction ops generalizing b with
  | nil => rfl
  | cons op ops ih => cases op <;> simp [sides, after, ih]

theorem after_append (b : Bool) (ops ops' : List GsOp) :
    after b (ops ++ ops') = after (after b ops) ops' := by
  induction ops generalizing b with
  | nil => rfl
  | cons op ops ih => cases op <;> simp [after, ih]

theorem Clean.nil : Clean [] := ⟨by simp [sides], rfl⟩

theorem Clean.append (h : Clean ops) (h' : Clean ops') : Clean (ops ++ ops') := by
  refine ⟨?_, by rw [after_append, h.2, h'.2]⟩
  rw [sides_append, h.2]
  intro p hp
  rcases List.mem_append.mp hp with hp | hp
  · exact h.1 p hp
  · exact h'.1 p hp

/-- An operation that is not a swap leaves the side alone. -/
theorem Clean.cons {op : GsOp} (hop : op ≠ .swap) (h : Clean ops) : Clean (op :: ops) := by
  cases op with
  | swap => exact absurd rfl hop
  | _ => exact ⟨by simpa [sides] using h.1, h.2⟩

/-- Two swaps on end undo each other. -/
theorem Clean.swap_swap (h : Clean ops) : Clean (.swap :: .swap :: ops) := h

end GsOp

namespace Machine

open GsOp

/-- `enter`, with a kernel stack to set when there is a task to run, then
`context_switch`. -/
def switchOps (next : Option ℕ) : List GsOp :=
  (if next.isSome then [.cpuIndex] else []) ++ [.away]

/-- `reschedule`. -/
def rescheduleOps (k : Machine) : List GsOp :=
  .cpuIndex :: match k.current with
    | none => []
    | some prev =>
      match k.pickNext prev with
      | none => []
      | some next => switchOps (some next)

/-- The switch that cannot decline, with the current task in state `st`. -/
def switchAwayOps (st : State) (k : Machine) : List GsOp :=
  match k.current with
  | none => []
  | some prev => switchOps
      (pickNext prev { k with tasks := k.tasks.modify prev fun t => { t with state := st } })

/-- `park_and_switch`. -/
def parkOps (k : Machine) : List GsOp := .cpuIndex :: k.switchAwayOps .blocked

/-- `exit`, which asks once more for `current_id`. -/
def exitOps (k : Machine) : List GsOp := .cpuIndex :: .cpuIndex :: k.switchAwayOps .dead

/-- `start`'s loop. -/
def startLoopOps (k : Machine) : List GsOp :=
  match k.firstReady with
  | some first => switchOps (some first)
  | none => []

/-- The stub's way out. -/
def sysretOps : List GsOp := [.swap, .ring3]

/-- `write_user_msg` and `read_user_msg` ask `current_space` once the pointer is aligned. -/
def userMsgOps (ptr : UInt64) : List GsOp := if ptr % 8 ≠ 0 then [] else [.cpuIndex]

/-- The tail of `sys_recv`. -/
def finishRecvOps (heap : Heap) (ptr : UInt64) (km : KMessage) (k : Machine) : List GsOp :=
  match km.cap with
  | none => userMsgOps ptr
  | some cap => .cpuIndex :: match k.installCapCurrent heap cap with
    | .ok (some _, _) => userMsgOps ptr
    | _ => []

/-- What follows `ipc::send` or `ipc::recv` in the syscall. -/
def returnOps (caller : Caller) (tail : List GsOp) : List GsOp :=
  match caller with
  | .thread => []
  | .ring3 _ _ _ => tail ++ .swap :: sysretOps

/-- `ipc::send`. -/
def sendOps (ep : ℕ) (km : KMessage) (caller : Caller) (k : Machine) : List GsOp :=
  if h : ep < numEndpoints then
    .cpuIndex :: match ((k.ipc ⟨ep, h⟩).decideSend (k.current.getD 0) km).1 with
      | .block => k.parkOps
      | _ => returnOps caller []
  else returnOps caller []

/-- `ipc::recv`. -/
def recvOps (heap : Heap) (ep : ℕ) (caller : Caller) (ptr : UInt64) (k : Machine) : List GsOp :=
  if h : ep < numEndpoints then
    .cpuIndex :: match ((k.ipc ⟨ep, h⟩).decideRecv (k.current.getD 0)).1 with
      | .got km => returnOps caller (k.finishRecvOps heap ptr km)
      | .wakeSender km _ => returnOps caller (k.finishRecvOps heap ptr km)
      | .block => k.parkOps
      | .full => returnOps caller []
  else returnOps caller []

/-- `sys_send`, between its two `swap_gs`. -/
def sysSendOps (frame : Frame) (corrupt : Bool) (k : Machine) : List GsOp :=
  .cpuIndex :: match k.endpointFor frame.rdi.toUInt32 true with
    | .ok (.ok (id, obj)) => userMsgOps frame.rsi ++ match k.readUserMsg frame.rsi with
      | .ok (some msg) =>
        if msg.cap = 0 then k.sendOps id ⟨msg, none⟩ (.ring3 frame corrupt obj)
        else .cpuIndex :: match k.resolveCap msg.cap with
          | .ok (some c) => k.sendOps id ⟨msg, some c⟩ (.ring3 frame corrupt obj)
          | _ => .swap :: sysretOps
      | _ => .swap :: sysretOps
    | _ => .swap :: sysretOps

/-- `sys_recv`, between its two `swap_gs`. -/
def sysRecvOps (heap : Heap) (frame : Frame) (corrupt : Bool) (k : Machine) : List GsOp :=
  .cpuIndex :: match k.endpointFor frame.rdi.toUInt32 false with
    | .ok (.ok (id, obj)) => userMsgOps frame.rsi ++
      match k.writeUserMsg frame.rsi (Message.new 0) with
      | .ok (some k) => k.recvOps heap id (.ring3 frame corrupt obj) frame.rsi
      | _ => .swap :: sysretOps
    | _ => .swap :: sysretOps

/-- `debug_write` asks `current_space` when the length is in bounds. -/
def debugWriteOps (len : UInt64) : List GsOp := if len > debugWriteMax then [] else [.cpuIndex]

/-- `on_syscall`, behind the stub's `swapgs`. -/
def onSyscallOps (heap : Heap) (frame : Frame) (k : Machine) : List GsOp :=
  .entry :: .swap :: match Syscall.fromRaw frame.rax with
    | some .yield => .swap :: (k.rescheduleOps ++ match k.reschedule (.yielded frame false) with
      | .ok none => .swap :: sysretOps
      | _ => [])
    | some .exit => .swap :: k.exitOps
    | some .debugWrite => debugWriteOps frame.rsi ++ sysretOps
    | some .send => .swap :: k.sysSendOps frame k.armNoncanonical
    | some .recv => .swap :: k.sysRecvOps heap frame k.armNoncanonical
    | some .revoke => .cpuIndex :: sysretOps
    | none => sysretOps

/-- The current task goes on in ring 3 when it has a space. -/
def backOps (k : Machine) : List GsOp :=
  match k.currentSpace with
  | .ok (some _) => [.ring3]
  | _ => []

/-- `request_resched` and `on_irq_epilogue`. -/
def timerOps (k : Machine) : List GsOp :=
  .cpuIndex :: .cpuIndex :: (k.rescheduleOps ++ match k.reschedule .preempted with
    | .ok none => k.backOps
    | _ => [])

/-- The continuation that was loaded: `post_switch` first, and for a fresh ring-3 task
the `current_space` of `user_task`. -/
def resumeOps (heap : Heap) (k : Machine) : List GsOp :=
  match k.loaded with
  | none => []
  | some .trampoline => .cpuIndex :: match k.currentSpace with
    | .ok (some _) => [.cpuIndex, .ring3]
    | _ => []
  | some .preempted => .cpuIndex :: k.backOps
  | some (.yielded _ _) => .cpuIndex :: .swap :: sysretOps
  | some (.sendParked _ caller) => .cpuIndex :: returnOps caller []
  | some (.recvParked _ caller) => .cpuIndex :: .cpuIndex ::
    match caller, ({ k with loaded := none } : Machine).postSwitch >>= takeMailbox with
    | .ring3 frame _ _, .ok (km, k) => returnOps caller (k.finishRecvOps heap frame.rsi km)
    | _, _ => []
  | some .inStart => .cpuIndex :: match ({ k with loaded := none } : Machine).postSwitch with
    | .ok k => k.startLoopOps
    | _ => []
  | some .exited => []

/-- What an act does to `GS`, and where. -/
def gsOps (heap : Heap) (act : Act) (k : Machine) : List GsOp :=
  match act with
  | .start => .cpuIndex :: k.startLoopOps
  | .timer => k.timerOps
  | .syscall frame => k.onSyscallOps heap frame
  | .send ep km => k.sendOps ep km .thread
  | .recv ep => k.recvOps heap ep .thread 0
  | .exit => k.exitOps
  | .resume => k.resumeOps heap
  | .spawn _ _ _ | .store _ _ | .create _ | .revoke _ | .arm => []

/-- The calls whose handler asks `cpu_index` before it has swapped `GS` back. -/
def blind : Act → Prop
  | .syscall frame => Syscall.fromRaw frame.rax = some .revoke ∨
      Syscall.fromRaw frame.rax = some .debugWrite ∧ frame.rsi ≤ debugWriteMax
  | _ => False

/-! ### Every handler leaves `GS` as it found it -/

section

variable {heap : Heap} {k : Machine} {caller : Caller} {tail : List GsOp}

theorem switchOps_clean (next : Option ℕ) : Clean (switchOps next) := by
  cases next <;> exact ⟨by simp [switchOps, sides], rfl⟩

theorem rescheduleOps_clean (k : Machine) : Clean k.rescheduleOps := by
  refine .cons (by simp) ?_
  split
  · exact .nil
  · split
    · exact .nil
    · exact switchOps_clean _

theorem switchAwayOps_clean (st : State) (k : Machine) : Clean (k.switchAwayOps st) := by
  unfold switchAwayOps
  split
  · exact .nil
  · exact switchOps_clean _

theorem parkOps_clean (k : Machine) : Clean k.parkOps := .cons (by simp) (switchAwayOps_clean _ k)

theorem exitOps_clean (k : Machine) : Clean k.exitOps :=
  .cons (by simp) (.cons (by simp) (switchAwayOps_clean _ k))

theorem startLoopOps_clean (k : Machine) : Clean k.startLoopOps := by
  unfold startLoopOps
  split
  · exact switchOps_clean _
  · exact .nil

/-- The handler's second `swap_gs` and the stub's way out. -/
theorem wayOut_clean : Clean (.swap :: sysretOps) := .swap_swap (.cons (by simp) .nil)

theorem userMsgOps_clean (ptr : UInt64) : Clean (userMsgOps ptr) := by
  unfold userMsgOps
  split
  · exact .nil
  · exact .cons (by simp) .nil

theorem finishRecvOps_clean (ptr : UInt64) (km : KMessage) : Clean (k.finishRecvOps heap ptr km) := by
  unfold finishRecvOps
  split
  · exact userMsgOps_clean ptr
  · refine .cons (by simp) ?_
    split
    · exact userMsgOps_clean ptr
    · exact .nil

theorem returnOps_clean (caller : Caller) (h : Clean tail) : Clean (returnOps caller tail) := by
  cases caller with
  | thread => exact .nil
  | ring3 => exact h.append wayOut_clean

theorem sendOps_clean (ep : ℕ) (km : KMessage) (caller : Caller) (k : Machine) :
    Clean (k.sendOps ep km caller) := by
  unfold sendOps
  split
  · refine .cons (by simp) ?_
    split
    · exact parkOps_clean k
    · exact returnOps_clean caller .nil
  · exact returnOps_clean caller .nil

theorem recvOps_clean (ep : ℕ) (caller : Caller) (ptr : UInt64) (k : Machine) :
    Clean (k.recvOps heap ep caller ptr) := by
  unfold recvOps
  split
  · refine .cons (by simp) ?_
    split
    · exact returnOps_clean caller (finishRecvOps_clean ..)
    · exact returnOps_clean caller (finishRecvOps_clean ..)
    · exact parkOps_clean k
    · exact returnOps_clean caller .nil
  · exact returnOps_clean caller .nil

theorem sysSendOps_clean (frame : Frame) (corrupt : Bool) (k : Machine) :
    Clean (k.sysSendOps frame corrupt) := by
  refine .cons (by simp) ?_
  split
  · refine (userMsgOps_clean _).append ?_
    split
    · split
      · exact sendOps_clean ..
      · refine .cons (by simp) ?_
        split
        · exact sendOps_clean ..
        · exact wayOut_clean
    · exact wayOut_clean
  · exact wayOut_clean

theorem sysRecvOps_clean (frame : Frame) (corrupt : Bool) (k : Machine) :
    Clean (k.sysRecvOps heap frame corrupt) := by
  refine .cons (by simp) ?_
  split
  · refine (userMsgOps_clean _).append ?_
    split
    · exact recvOps_clean ..
    · exact wayOut_clean
  · exact wayOut_clean

/-- An operation before the stub's `swapgs` and one after it change nothing in between. -/
theorem entry_clean {ops : List GsOp} (h : Clean ops) : Clean (.entry :: .swap :: .swap :: ops) :=
  .cons (by simp) (.swap_swap h)

theorem onSyscallOps_clean {frame : Frame} (h : ¬blind (.syscall frame)) :
    Clean (k.onSyscallOps heap frame) := by
  have hout : Clean (.entry :: .swap :: sysretOps) := entry_clean (.cons (by simp) .nil)
  unfold onSyscallOps
  cases hcall : Syscall.fromRaw frame.rax with
  | none => exact hout
  | some call =>
    cases call with
    | yield =>
      refine entry_clean ((rescheduleOps_clean k).append ?_)
      split
      · exact wayOut_clean
      · exact .nil
    | exit => exact entry_clean (exitOps_clean k)
    | debugWrite =>
      have hlen : frame.rsi > debugWriteMax := by
        by_contra hle
        exact h (.inr ⟨hcall, UInt64.not_lt.mp hle⟩)
      simpa only [debugWriteOps, hlen, if_true, List.nil_append] using hout
    | send => exact entry_clean (sysSendOps_clean ..)
    | recv => exact entry_clean (sysRecvOps_clean ..)
    | revoke => exact absurd (.inl hcall) h

theorem backOps_clean (k : Machine) : Clean k.backOps := by
  unfold backOps
  split
  · exact .cons (by simp) .nil
  · exact .nil

theorem timerOps_clean (k : Machine) : Clean k.timerOps := by
  refine .cons (by simp) (.cons (by simp) ((rescheduleOps_clean k).append ?_))
  split
  · exact backOps_clean k
  · exact .nil

theorem resumeOps_clean (k : Machine) : Clean (k.resumeOps heap) := by
  unfold resumeOps
  split
  · exact .nil
  · refine .cons (by simp) ?_
    split
    · exact .cons (by simp) (.cons (by simp) .nil)
    · exact .nil
  · exact .cons (by simp) (backOps_clean k)
  · exact .cons (by simp) wayOut_clean
  · exact .cons (by simp) (returnOps_clean _ .nil)
  · refine .cons (by simp) (.cons (by simp) ?_)
    split
    · exact returnOps_clean _ (finishRecvOps_clean ..)
    · exact .nil
  · refine .cons (by simp) ?_
    split
    · exact startLoopOps_clean _
    · exact .nil
  · exact .nil

theorem gsOps_clean {act : Act} (h : ¬blind act) : Clean (k.gsOps heap act) := by
  cases act with
  | start => exact .cons (by simp) (startLoopOps_clean k)
  | timer => exact timerOps_clean k
  | syscall frame => exact onSyscallOps_clean h
  | send ep km => exact sendOps_clean ..
  | recv ep => exact recvOps_clean ..
  | exit => exact exitOps_clean k
  | resume => exact resumeOps_clean k
  | spawn => exact .nil
  | store => exact .nil
  | create => exact .nil
  | revoke => exact .nil
  | arm => exact .nil

/-- A blind call asks once, between the two swaps. -/
theorem gsOps_blind {act : Act} (h : blind act) :
    k.gsOps heap act = [.entry, .swap, .cpuIndex, .swap, .ring3] := by
  cases act with
  | syscall frame =>
    obtain hrev | ⟨hdbg, hle⟩ := h
    · simp [gsOps, onSyscallOps, hrev, sysretOps]
    · have hno : ¬frame.rsi > debugWriteMax := UInt64.not_lt.mpr hle
      simp [gsOps, onSyscallOps, hdbg, debugWriteOps, hno, sysretOps]
  | _ => exact absurd h id

/-- Whatever the act, it ends on the side it began on. -/
theorem gsOps_after (heap : Heap) (act : Act) (k : Machine) :
    GsOp.after true (k.gsOps heap act) = true := by
  by_cases h : blind act
  · rw [gsOps_blind h]
    rfl
  · exact (gsOps_clean h).2

end

/-! ### Balance -/

/-- At every moment of a run the per-core block is where ordinary ring-0 code expects
it; in particular whenever a syscall enters, ring 3 is entered or gone back to, or a
context is left. -/
theorem swapgs_balanced {k : Machine} (h : Reachable k) :
    k.cpu.gsOrdinary = true ∧ ∀ (heap : Heap) (act : Act) (k' : Machine), Move k (heap, act) k' →
      k'.cpu.gsOrdinary = GsOp.after k.cpu.gsOrdinary (k.gsOps heap act) ∧
      ∀ p ∈ GsOp.sides k.cpu.gsOrdinary (k.gsOps heap act),
        p.1 = .entry ∨ p.1 = .ring3 ∨ p.1 = .away → p.2 = true := by
  obtain ⟨root, hrun⟩ := h
  obtain ⟨hs, hgs⟩ := Run.staged (I := fun s => s.cpu.gsOrdinary = true) hrun (init_sound root) rfl
    fun s s' hgs hstep => hstep.gsOrdinary.trans hgs
  refine ⟨hgs, fun heap act k' hm => ?_⟩
  have hgs : k.cpu.gsOrdinary = true := hgs
  have hgs' : k'.cpu.gsOrdinary = true :=
    ((hm.staged hs.coherent hs.queued).gsOrdinary).trans hgs
  rw [hgs, hgs', gsOps_after]
  refine ⟨rfl, fun p hp hpoint => ?_⟩
  by_cases hb : blind act
  · rw [gsOps_blind hb] at hp
    simp only [GsOp.sides, List.mem_cons, List.not_mem_nil, or_false] at hp
    obtain rfl | rfl | rfl := hp
    · rfl
    · simp at hpoint
    · rfl
  · exact (gsOps_clean hb).1 p hp

/-- A ring-3 task yields to a kernel thread. -/
def yielding : List Act :=
  [.spawn (some 0x9000) (some ⟨0x5000, 0x400000, fun _ _ _ => false, fun _ => 0, 0⟩) [],
    .spawn (some 0xA000) none [], .start, .resume, .syscall ⟨0, 0, 0, 0⟩]

/-- The `Yield` leaves its task, and the block is where it belongs, then and after. -/
theorem swapgs_balanced_yielding : (after yielding).cpu.gsOrdinary = true ∧
    ∀ p ∈ GsOp.sides true ((after (yielding.take 4)).gsOps ⟨8, by decide⟩ (.syscall ⟨0, 0, 0, 0⟩)),
      p.1 = .away → p.2 = true := by
  obtain ⟨hgs, hpoints⟩ :=
    (swapgs_balanced (after_reachable (by decide) : Reachable (after (yielding.take 4)))).2
      ⟨8, by decide⟩ (.syscall ⟨0, 0, 0, 0⟩) (after yielding)
      (step_after (yielding.take 4) (.syscall ⟨0, 0, 0, 0⟩) (by decide))
  exact ⟨hgs, fun p hp haway => hpoints p hp (.inr (.inr haway))⟩

end Machine

/-! ### Which core this is -/

/-- `MAX_CPUS`. -/
def maxCpus : ℕ := 32

/-- The two bases of a core, as the index of the block in `PERCPU` they point to; none
is null. -/
structure GsBases where
  gsBase : Option ℕ
  kernelGsBase : Option ℕ

/-- `swapgs`. -/
def GsBases.swap (g : GsBases) : GsBases := ⟨g.kernelGsBase, g.gsBase⟩

/-- `syscall::init`, of the fields `cpu_index` of `PERCPU` and the two bases. -/
def syscallInit (cpu : ℕ) (percpu : ℕ → UInt64) : (ℕ → UInt64) × GsBases :=
  let index := min cpu (maxCpus - 1)
  (Function.update percpu index (UInt64.ofNat index), ⟨none, some index⟩)

/-- `cpu_index`. -/
def cpuIndex (percpu : ℕ → UInt64) (g : GsBases) : UInt64 :=
  match g.kernelGsBase with
  | none => 0
  | some block => percpu block

/-- What `cpu_index` answers, each time it is asked. -/
def answers (percpu : ℕ → UInt64) : GsBases → List GsOp → List UInt64
  | _, [] => []
  | g, .swap :: ops => answers percpu g.swap ops
  | g, .cpuIndex :: ops => cpuIndex percpu g :: answers percpu g ops
  | g, _ :: ops => answers percpu g ops

/-- What `cpu_index` answers on core `i` over these calls, from its `init` on. Each call
comes with the machine it finds: the other cores share its tables, so that can be any. -/
def answersOn (i : ℕ) (percpu : ℕ → UInt64) (calls : List (Heap × Machine.Act × Machine)) : List UInt64 :=
  let (percpu, g) := syscallInit i percpu
  answers percpu g (calls.flatMap fun (heap, act, k) => k.gsOps heap act)

section

variable {i : ℕ} {percpu : ℕ → UInt64}

/-- The bases of core `i` on either side of the swap. -/
def basesOf (i : ℕ) (ordinary : Bool) : GsBases :=
  if ordinary then ⟨none, some i⟩ else ⟨some i, none⟩

theorem basesOf_swap (i : ℕ) (b : Bool) : (basesOf i b).swap = basesOf i !b := by
  cases b <;> rfl

/-- The answer is the core's own on the ordinary side, and zero on the other. -/
theorem mem_answers {b : Bool} {ops : List GsOp} {a : UInt64} :
    a ∈ answers percpu (basesOf i b) ops ↔
      ∃ c, (GsOp.cpuIndex, c) ∈ GsOp.sides b ops ∧ a = if c then percpu i else 0 := by
  induction ops generalizing b with
  | nil => simp [answers, GsOp.sides]
  | cons op ops ih =>
    cases op with
    | swap => simpa only [answers, GsOp.sides, basesOf_swap] using ih
    | cpuIndex =>
      have hhere : cpuIndex percpu (basesOf i b) = if b then percpu i else 0 := by
        cases b <;> rfl
      simp only [answers, GsOp.sides, List.mem_cons, ih, hhere, Prod.mk.injEq, true_and]
      constructor
      · rintro (ha | ⟨c, hc, ha⟩)
        · exact ⟨b, .inl rfl, ha⟩
        · exact ⟨c, .inr hc, ha⟩
      · rintro ⟨c, rfl | hc, ha⟩
        · exact .inl ha
        · exact .inr ⟨c, hc, ha⟩
    | _ => simpa [answers, GsOp.sides] using ih

theorem sides_calls (calls : List (Heap × Machine.Act × Machine)) :
    GsOp.sides true (calls.flatMap fun (heap, act, k) => k.gsOps heap act) =
      calls.flatMap fun (heap, act, k) => GsOp.sides true (k.gsOps heap act) := by
  induction calls with
  | nil => rfl
  | cons c calls ih =>
    obtain ⟨heap, act, k⟩ := c
    rw [List.flatMap_cons, GsOp.sides_append, Machine.gsOps_after, ih, List.flatMap_cons]

/-- `cpu_index` answers rightly on core `i` throughout exactly when `i` is the boot core, or
no call is blind. -/
theorem core_identity (i : ℕ) (hi : i < maxCpus) (percpu : ℕ → UInt64)
    (calls : List (Heap × Machine.Act × Machine)) :
    (∀ a ∈ answersOn i percpu calls, a = UInt64.ofNat i) ↔
      i = 0 ∨ ∀ c ∈ calls, ¬Machine.blind c.2.1 := by
  have hindex : min i (maxCpus - 1) = i := by
    unfold maxCpus at hi ⊢
    omega
  have hown : Function.update percpu i (UInt64.ofNat i) i = UInt64.ofNat i := by simp
  have hans : ∀ a, a ∈ answersOn i percpu calls ↔ ∃ b,
      (∃ c ∈ calls, (GsOp.cpuIndex, b) ∈ GsOp.sides true (c.2.2.gsOps c.1 c.2.1)) ∧
        a = if b then UInt64.ofNat i else 0 := by
    intro a
    have hbases : (syscallInit i percpu).2 = basesOf i true := by simp [syscallInit, basesOf, hindex]
    simp only [answersOn, hbases, mem_answers, sides_calls, List.mem_flatMap]
    simp only [syscallInit, hindex, hown]
  constructor
  · intro hall
    by_contra! hno
    obtain ⟨hne, c, hc, hblind⟩ := hno
    have hasked : (GsOp.cpuIndex, false) ∈ GsOp.sides true (c.2.2.gsOps c.1 c.2.1) := by
      simp [Machine.gsOps_blind hblind, GsOp.sides]
    have hzero := hall 0 ((hans 0).mpr ⟨false, ⟨c, hc, hasked⟩, rfl⟩)
    have hnat := congrArg UInt64.toNat hzero
    rw [UInt64.toNat_ofNat_of_lt' (by unfold maxCpus at hi; simp [UInt64.size]; omega)] at hnat
    exact hne hnat.symm
  · intro hok a ha
    obtain ⟨b, ⟨c, hc, hmem⟩, rfl⟩ := (hans a).mp ha
    obtain rfl | hno := hok
    · cases b <;> rfl
    · have hb : b = true := (Machine.gsOps_clean (hno c hc)).1 _ hmem
      rw [hb, if_pos rfl]

/-- On core 3, which is not the boot core, a run without a blind call: a task yields. -/
theorem core_identity_yielding : (answersOn 3 (fun _ => 0)
    [(⟨8, by decide⟩, .syscall ⟨0, 0, 0, 0⟩, Machine.after (Machine.yielding.take 4))]).all
      (fun a => a == UInt64.ofNat 3) = true := by
  have hall := (core_identity 3 (by decide) (fun _ => 0)
    [(⟨8, by decide⟩, .syscall ⟨0, 0, 0, 0⟩, Machine.after (Machine.yielding.take 4))]).mpr (.inr (by
      intro c hc
      obtain rfl := List.mem_singleton.mp hc
      simp [Machine.blind, Syscall.fromRaw]))
  exact List.all_eq_true.mpr fun a ha => beq_iff_eq.mpr (hall a ha)

/-- A ring-3 task on core 1 revokes its handle, and the handler takes it for core 0's. -/
theorem core_identity_fails : ¬∀ i < maxCpus, ∀ (percpu : ℕ → UInt64)
    (calls : List (Heap × Machine.Act × Machine)), ∀ a ∈ answersOn i percpu calls,
      a = UInt64.ofNat i := by
  intro h
  have hzero := h 1 (by decide) (fun _ => 0)
    [(⟨8, by decide⟩, .syscall ⟨6, 1, 0, 0⟩, Machine.after (Machine.yielding.take 4))] 0 (by
      simp [answersOn, syscallInit, Machine.gsOps, Machine.onSyscallOps, Syscall.fromRaw, answers,
        cpuIndex, GsBases.swap, Machine.sysretOps])
  cases hzero

end

end StarOs.Kernel
