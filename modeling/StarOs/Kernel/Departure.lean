import StarOs.Kernel.RoundRobin

/-! The end of a task, up to its successor's `post_switch`: what changes is the task itself and
the state of the one task that runs next. -/

namespace StarOs.Kernel

open Library

/-- What `on_trap` decides by. -/
structure TrapFrame where
  vector : UInt64
  rip : UInt64
  cs : UInt64
  deriving DecidableEq

/-- `ARMED`, `EXPECT_FAULT_AT` and `RESUME_AT`, of the page-fault self-test. -/
structure Expected where
  armed : Bool
  faultAt : UInt64
  resumeAt : UInt64
  deriving DecidableEq

/-- What becomes of a trap: a device's handler takes it, the code it interrupted goes on, the
current task is killed, or the core halts. -/
inductive Trapped where
  | device
  | resumed (frame : TrapFrame) (test : Expected)
  | killed (r : Except Panic Machine)
  | halted

def vectorBreakpoint : UInt64 := 3

def vectorPageFault : UInt64 := 14

def picBase : UInt64 := 32

def TrapFrame.fromUser (frame : TrapFrame) : Bool := frame.cs &&& 3 != 0

def isDeviceVector (vector : UInt64) : Bool := picBase ≤ vector && vector < 256

def resumeIfExpected (frame : TrapFrame) (address : UInt64) (test : Expected) :
    Option (TrapFrame × Expected) :=
  if !test.armed || frame.vector != vectorPageFault || test.resumeAt == 0 then none
  else if address != test.faultAt then none
  else some ({ frame with rip := test.resumeAt },
    { test with armed := false, resumeAt := 0 })

namespace Machine

/-- `in_task` -/
def inTask (k : Machine) : Bool := k.current.isSome

/-- `on_trap`; `address` is what it reads from `CR2`, and `console` whether there is one. -/
def onTrap (frame : TrapFrame) (address : UInt64) (console : Bool) (test : Expected)
    (k : Machine) : Trapped :=
  if isDeviceVector frame.vector then .device
  else if !console then .halted
  else
    match resumeIfExpected frame address test with
    | some (frame, test) => .resumed frame test
    | none =>
      if frame.vector == vectorBreakpoint then .resumed frame test
      else if frame.fromUser && k.inTask then .killed k.exit
      else .halted

/-- The ways out of a task: its entry returns, it calls `Exit`, or it faults in ring 3. -/
inductive Ends (heap : Heap) (k : Machine) : Except Panic Machine → Prop
  | returned : Ends heap k k.exit
  | called {frame : Frame} (h : Syscall.fromRaw frame.rax = some .exit) :
      Ends heap k (k.onSyscall heap frame)
  | faulted {frame : TrapFrame} {address : UInt64} {console : Bool} {test : Expected}
      {r : Except Panic Machine} (h : k.onTrap frame address console test = .killed r) :
      Ends heap k r

/-- What is left of a task that ended. -/
def gone (x : Task) : Task :=
  { x with ctx := .saved .exited, state := .dead, stack := 0, space := none, caps := [],
           mailbox := none }

/-- Task `n` was ready, and its context is the one that was loaded. -/
structure Succeeds (n : ℕ) (k k₁ k₂ : Machine) : Prop where
  current : k₂.current = some n
  task : ∃ y r, k.tasks[n]? = some y ∧ y.state = .ready ∧ y.ctx = .saved r ∧
    k₁.loaded = some r ∧ k₁.cpu.cr3 = y.cr3 ∧
    k₂.tasks[n]? = some { y with state := .running, ctx := .loaded }

/-- Nobody was ready, and the core is back in the bootstrap context. -/
structure Idles (t : ℕ) (k k₁ k₂ : Machine) : Prop where
  current : k₂.current = none
  loaded : k.bootstrap = .saved .inStart ∧ k₁.loaded = some .inStart ∧ k₂.bootstrap = .loaded
  tree : k₁.cpu.cr3 = k.kernelRoot
  stopped : ∀ (i : ℕ) (y : Task), i ≠ t → k.tasks[i]? = some y → y.state ≠ .ready

/-- Task `t` of `k`, which was `x`, has left the core, which is `k₁`. -/
structure Left (t : ℕ) (x : Task) (k k₁ : Machine) : Prop where
  own : k₁.tasks[t]? = some { x with state := .dead, ctx := .saved .exited }
  others : ∀ i, i ≠ t → k₁.current ≠ some i → k₁.tasks[i]? = k.tasks[i]?
  next : (∃ n, n ≠ t ∧ Succeeds n k k₁ k₁) ∨ Idles t k k₁ k₁
  prev : k₁.prev = some t
  ipc : k₁.ipc = k.ipc
  objects : k₁.objects = k.objects
  log : k₁.log = k.log
  reaped : k₁.stats.reapedFrames = k.stats.reapedFrames

/-- Task `t` of `k` left the core, which is `k₁`, and was settled, which is `k₂`. -/
structure Departed (t : ℕ) (k k₁ k₂ : Machine) : Prop where
  own : ∃ x, k.tasks[t]? = some x ∧ k₂.tasks[t]? = some (gone x) ∧
    k₂.stats.reapedFrames = k.stats.reapedFrames + (x.space.map UserSpace.frames).getD 0
  others : ∀ i, i ≠ t → k₂.current ≠ some i → k₂.tasks[i]? = k.tasks[i]?
  next : (∃ n, n ≠ t ∧ Succeeds n k k₁ k₂) ∨ Idles t k k₁ k₂
  settled : k₁.prev = some t ∧ (∃ z, k₁.tasks[t]? = some z ∧ z.state = .dead) ∧ k₂.prev = none
  ipc : k₂.ipc = k.ipc
  objects : k₂.objects = k.objects
  log : k₂.log = k.log

section

variable {k k₁ k₂ : Machine} {t : ℕ} {x : Task}

/-! ### Leaving -/

/-- The machine after `exit` has marked its task. -/
def marked (t : ℕ) (k : Machine) : Machine :=
  { k with tasks := k.tasks.modify t fun y => { y with state := .dead } }

theorem marked_other {i : ℕ} (h : i ≠ t) : (k.marked t).tasks[i]? = k.tasks[i]? := by
  simp [marked, Ne.symm h]

theorem saved_marked (hx : k.tasks[t]? = some x) :
    ((k.marked t).saved (some t) .exited).tasks[t]? =
      some { x with state := .dead, ctx := .saved .exited } := by
  simp [saved, marked, hx]

theorem saved_marked_other {i : ℕ} (h : i ≠ t) :
    ((k.marked t).saved (some t) .exited).tasks[i]? = k.tasks[i]? := by
  simp only [saved, List.getElem?_modify_ne _ _ h.symm, marked_other h]

/-- Whoever `pick_next` finds once `t` is marked was ready, and is not `t`. -/
theorem pickNext_marked {n : ℕ} (h : (k.marked t).pickNext t = some n) :
    n ≠ t ∧ ∃ y, k.tasks[n]? = some y ∧ y.state = .ready := by
  obtain ⟨y, hy, hready⟩ := pickNext_some h
  have hne : n ≠ t := by
    rintro rfl
    obtain ⟨z, hz, rfl⟩ : ∃ z, k.tasks[n]? = some z ∧ { z with state := .dead } = y := by
      simpa [marked] using hy
    cases hready
  exact ⟨hne, y, marked_other hne ▸ hy, hready⟩

theorem left_entered {n : ℕ} {y : Task} {r : Resume} (hx : k.tasks[t]? = some x) (hne : n ≠ t)
    (hy : k.tasks[n]? = some y) (hready : y.state = .ready) (hctx : y.ctx = .saved r) :
    Left t x k (entered (some t) n y r ((k.marked t).saved (some t) .exited)) where
  own := by simp only [entered, List.getElem?_modify_ne _ _ hne, saved_marked hx]
  others i hi hcur := by
    have hin : n ≠ i := fun h => hcur (congrArg some h)
    simp only [entered, List.getElem?_modify_ne _ _ hin, saved_marked_other hi]
  next := by
    refine .inl ⟨n, hne, rfl, y, r, hy, hready, hctx, rfl, rfl, ?_⟩
    simp only [entered, List.getElem?_modify_eq, saved_marked_other hne, hy, Option.map_eq_map,
      Option.map_some]
  prev := rfl
  ipc := rfl
  objects := rfl
  log := rfl
  reaped := rfl

theorem left_idled (hx : k.tasks[t]? = some x) (hb : k.bootstrap = .saved .inStart)
    (hnone : (k.marked t).pickNext t = none) :
    Left t x k (idled t .inStart ((k.marked t).saved (some t) .exited)) where
  own := saved_marked hx
  others i hi _ := saved_marked_other hi
  next := by
    refine .inr ⟨rfl, ⟨hb, rfl, rfl⟩, rfl, fun i y hi hy => ?_⟩
    have hlt : t < (k.marked t).tasks.length := by simpa [marked] using lt_of_getElem? hx
    exact pickNext_none hlt hnone ((marked_other hi).trans hy)
  prev := rfl
  ipc := rfl
  objects := rfl
  log := rfl
  reaped := rfl

theorem exit_left (hc : k.Coherent) (hq : k.net.Queued ringCap) (hk : k.current = some t)
    (hl : k.loaded = none) :
    ∃ x k₁, k.tasks[t]? = some x ∧ k.exit = .ok k₁ ∧ Left t x k k₁ := by
  obtain ⟨x, hx, -, -, hfree⟩ := hc.current_task hk hl
  have hlt : t < (k.marked t).tasks.length := by simpa [marked] using lt_of_getElem? hx
  have hexit : k.exit = (k.marked t).switchAway t .exited := by
    simp only [exit, currentId_eq hk, ok_bind, forgetTask_of_free hq hfree, gt_iff_lt,
      Nat.lt_irrefl, if_false]
    rw [onTask_eq _ (by exact lt_of_getElem? hx), ok_bind]
    rfl
  rw [hexit, switchAway]
  cases hpick : (k.marked t).pickNext t with
  | some n =>
    obtain ⟨hne, y, hy, hready⟩ := pickNext_marked hpick
    obtain ⟨r, hctx⟩ := hc.ready_seat (stage_seat hy) hready
    refine ⟨x, _, hx, dispatch_eq ?_ ((marked_other hne).trans hy) hctx,
      left_entered hx hne hy hready hctx⟩
    intro i hi
    obtain rfl := Option.some.inj hi
    exact ⟨hlt, hne.symm⟩
  | none =>
    have hb := hc.bootstrap (by rw [hk]; rfl)
    exact ⟨x, _, hx, toBootstrap_eq hlt hb, left_idled hx hb hpick⟩

/-! ### Settling -/

/-- The machine with the dead task `t` settled. -/
theorem postSwitch_reaped {z : Task} (hprev : k.prev = some t) (hz : k.tasks[t]? = some z)
    (hd : z.state = .dead) : ∃ s, k.postSwitch = .ok { k with
        prev := none, tasks := k.tasks.modify t reap, stats := s } ∧
      s.reapedFrames = k.stats.reapedFrames + (z.space.map UserSpace.frames).getD 0 := by
  simp only [postSwitch, hprev]
  rw [task_eq (by exact hz), ok_bind, onTask_eq _ (by exact lt_of_getElem? hz), ok_bind]
  refine ⟨_, rfl, ?_⟩
  cases hsp : z.space <;> by_cases hst : z.stack = 0 <;> simp [hd, hst, count]

theorem Left.departed (h : Left t x k k₁) (hx : k.tasks[t]? = some x) :
    ∃ k₂, ({ k₁ with loaded := none } : Machine).postSwitch = .ok k₂ ∧ Departed t k k₁ k₂ := by
  obtain ⟨s, hpost, hframes⟩ := postSwitch_reaped (k := { k₁ with loaded := none }) h.prev h.own rfl
  have hother : ∀ i, i ≠ t → (k₁.tasks.modify t reap)[i]? = k₁.tasks[i]? :=
    fun i hi => List.getElem?_modify_ne _ _ hi.symm
  refine ⟨_, hpost, ⟨x, hx, ?_, ?_⟩, ?_, ?_, ⟨h.prev, ⟨_, h.own, rfl⟩, rfl⟩, h.ipc, h.objects, h.log⟩
  · simp only [List.getElem?_modify_eq, h.own, Option.map_eq_map, Option.map_some]
    simp [reap, gone]
  · exact h.reaped ▸ hframes
  · exact fun i hi hcur => (hother i hi).trans (h.others i hi hcur)
  · refine h.next.imp ?_ fun hi => ⟨hi.current, hi.loaded, hi.tree, hi.stopped⟩
    rintro ⟨n, hn, hs⟩
    obtain ⟨y, r, hy, hready, hctx, hload, hcr3, hrun⟩ := hs.task
    exact ⟨n, hn, hs.current, y, r, hy, hready, hctx, hload, hcr3, (hother n hn).trans hrun⟩

theorem exit_departed (hc : k.Coherent) (hq : k.net.Queued ringCap) (hk : k.current = some t)
    (hl : k.loaded = none) :
    ∃ k₁ k₂, k.exit = .ok k₁ ∧ ({ k₁ with loaded := none } : Machine).postSwitch = .ok k₂ ∧
      Departed t k k₁ k₂ := by
  obtain ⟨x, k₁, hx, hexit, hleft⟩ := exit_left hc hq hk hl
  obtain ⟨k₂, hpost, hd⟩ := hleft.departed hx
  exact ⟨k₁, k₂, hexit, hpost, hd⟩

/-- The trap handler kills by `exit` and by nothing else. -/
theorem onTrap_killed {frame : TrapFrame} {address : UInt64} {console : Bool} {test : Expected}
    {r : Except Panic Machine} (h : k.onTrap frame address console test = .killed r) :
    r = k.exit := by
  unfold onTrap at h
  split at h
  · cases h
  · split at h
    · cases h
    · split at h
      · cases h
      · split at h
        · cases h
        · split at h
          · exact (Trapped.killed.inj h).symm
          · cases h

/-- What a departure does, it does to a machine that differs in its registers only. -/
theorem Departed.entered {k' : Machine} (h : Departed t k' k₁ k₂) (htasks : k'.tasks = k.tasks)
    (hboot : k'.bootstrap = k.bootstrap) (hroot : k'.kernelRoot = k.kernelRoot)
    (hreaped : k'.stats.reapedFrames = k.stats.reapedFrames) (hipc : k'.ipc = k.ipc)
    (hobjects : k'.objects = k.objects) (hlog : k'.log = k.log) : Departed t k k₁ k₂ := by
  obtain ⟨hown, hothers, hnext, hsettled, hipc', hobjects', hlog'⟩ := h
  rw [htasks] at hown hothers
  rw [hreaped] at hown
  refine ⟨hown, hothers, hnext.imp ?_ ?_, hsettled, hipc'.trans hipc, hobjects'.trans hobjects,
    hlog'.trans hlog⟩
  · rintro ⟨n, hn, hcur, htask⟩
    exact ⟨n, hn, hcur, htasks ▸ htask⟩
  · rintro ⟨hcur, hloaded, htree, hstopped⟩
    exact ⟨hcur, hboot ▸ hloaded, hroot ▸ htree, htasks ▸ hstopped⟩

/-- Every way out of a task is `exit`, up to the `swapgs` and the counting of a call. -/
theorem Ends.departed {heap : Heap} {r : Except Panic Machine} (hc : k.Coherent)
    (hq : k.net.Queued ringCap) (hk : k.current = some t) (hl : k.loaded = none)
    (h : Ends heap k r) :
    ∃ k₁ k₂, r = .ok k₁ ∧ ({ k₁ with loaded := none } : Machine).postSwitch = .ok k₂ ∧
      Departed t k k₁ k₂ := by
  cases h with
  | returned => exact exit_departed hc hq hk hl
  | @called frame hcall =>
    have hin : Entered k (k.entry.count id).swapGs :=
      entered_entry id (fun _ => rfl) (fun _ => rfl) (fun _ => rfl)
    have htasks := entry_tasks (k := k) id
    have hobjects := entry_objects (k := k) id
    have hexit : k.onSyscall heap frame = (k.entry.count id).swapGs.exit := by
      unfold onSyscall
      rw [hcall]
      rfl
    rw [hexit]
    generalize (k.entry.count id).swapGs = k₀ at hin htasks hobjects
    obtain ⟨k₁, k₂, hk₁, hk₂, hd⟩ := exit_departed (hin.sched.coherent hc) (hin.queued hq)
      (hin.sched.current.trans hk) (hin.sched.loaded.trans hl)
    have hroot : k₀.kernelRoot = k.kernelRoot := congrArg Stage.kernelRoot hin.stage
    have hreaped := congrArg (fun s : Stage => s.tally.reapedFrames) hin.stage
    exact ⟨k₁, k₂, hk₁, hk₂,
      hd.entered htasks hin.sched.bootstrap hroot hreaped hin.ipc hobjects hin.log⟩
  | faulted h => exact onTrap_killed h ▸ exit_departed hc hq hk hl

end

end Machine

end StarOs.Kernel
