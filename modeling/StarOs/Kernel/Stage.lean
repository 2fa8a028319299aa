import StarOs.Kernel.Sched

/-! The scheduler on its own: seats instead of tasks, and what one act of the core
can do to them. Messages, capabilities and memory are not seen from here. -/

namespace StarOs.Kernel

/-- What the scheduler knows of a task; of its address space, the root and the
frames its teardown returns. -/
structure Seat where
  ctx : Context
  stack : ℕ
  top : UInt64
  cr3 : UInt64
  space : Option (UInt64 × UInt64)
  state : State

/-- The counters the scheduler keeps about parking and reaping. -/
structure Tally where
  blocks : UInt64
  wakeups : UInt64
  diedBlocked : UInt64
  reapedStacks : UInt64
  reapedWords : UInt64
  reapedSpaces : UInt64
  reapedFrames : UInt64
  deriving DecidableEq

structure Stage where
  seats : List Seat
  bootstrap : Context
  current : Option ℕ
  prev : Option ℕ
  kernelRoot : UInt64
  cpu : Cpu
  loaded : Option Resume
  tally : Tally

namespace Seat

/-- It still owns its stack or its space. -/
def Holds (x : Seat) : Prop := x.stack ≠ 0 ∨ x.space.isSome

def give (x : Seat) : Seat := { x with stack := 0, space := none }

theorem give_not_holds (x : Seat) : ¬x.give.Holds := by simp [give, Holds]

end Seat

/-- A seat that stops in state `st` is counted when it parks. -/
def Tally.stopped (st : State) (t : Tally) : Tally :=
  if st = .blocked then { t with blocks := t.blocks + 1 } else t

/-- What a settled seat adds to the counters. -/
def Tally.reaped (x : Seat) (t : Tally) : Tally :=
  if x.state = .dead then
    { t with
      reapedStacks := if x.stack ≠ 0 then t.reapedStacks + 1 else t.reapedStacks
      reapedWords := if x.stack ≠ 0 then t.reapedWords + UInt64.ofNat x.stack else t.reapedWords
      reapedSpaces := if x.space.isSome then t.reapedSpaces + 1 else t.reapedSpaces
      reapedFrames := t.reapedFrames + (x.space.map Prod.snd).getD 0 }
  else t

namespace Stage

/-- A blocked seat is made ready. -/
def wake (w : ℕ) (s : Stage) : Stage :=
  { s with
    seats := s.seats.modify w fun x => { x with state := .ready }
    tally := { s.tally with wakeups := s.tally.wakeups + 1 } }

/-- The current seat stops in state `st`, its context saved. -/
def leave (p : ℕ) (st : State) (r : Resume) (s : Stage) : Stage :=
  { s with
    seats := s.seats.modify p fun x => { x with state := st, ctx := .saved r }
    tally := s.tally.stopped st }

/-- Seat `next`, which is `y`, is switched to, and its continuation `r` loaded. -/
def enter (prev : Option ℕ) (next : ℕ) (y : Seat) (r : Resume) (s : Stage) : Stage :=
  { s with
    seats := s.seats.modify next fun x => { x with state := .running, ctx := .loaded }
    current := some next
    prev := prev
    cpu := { s.cpu with cr3 := y.cr3, rsp0 := y.top, kernelRsp := y.top }
    loaded := some r }

/-- The bootstrap context is switched back to. -/
def idle (p : ℕ) (s : Stage) : Stage :=
  { s with
    bootstrap := .loaded
    current := none
    prev := some p
    cpu := { s.cpu with cr3 := s.kernelRoot }
    loaded := some .inStart }

/-- `start` takes the tree it finds as the kernel's. -/
def adopt (s : Stage) : Stage := { s with kernelRoot := s.cpu.cr3 }

/-- `start` saves the bootstrap context. -/
def board (s : Stage) : Stage := { s with bootstrap := .saved .inStart }

/-- The continuation that was loaded settles the seat switched away from: a dead one
gives up its stack and its space. -/
def settle (s : Stage) : Stage :=
  match s.prev.bind fun p => s.seats[p]?.map fun x => (p, x) with
  | none => { s with prev := none, loaded := none }
  | some (p, x) =>
    { s with
      prev := none
      loaded := none
      seats := s.seats.modify p fun x => if x.state = .dead then x.give else x
      tally := s.tally.reaped x }

@[simp] theorem settle_loaded (s : Stage) : s.settle.loaded = none := by
  unfold settle
  split <;> rfl

theorem settle_prev (s : Stage) : s.settle.prev = none := by
  unfold settle
  split <;> rfl

/-- Back in the bootstrap context, `start`'s loop is in the kernel's tree again. -/
def home (s : Stage) : Stage := { s with cpu := { s.cpu with cr3 := s.kernelRoot } }

/-- A seat as `spawn_with` makes it: in the tree of its space, or in the one the
core is in. -/
structure Fresh (s : Stage) (x : Seat) : Prop where
  ready : x.state = .ready
  ctx : x.ctx = .saved .trampoline
  stack : x.stack = stackWords
  cr3 : x.cr3 = (x.space.map Prod.fst).getD s.cpu.cr3
  spawner : ∀ i y, s.current = some i → s.seats[i]? = some y → y.space = none

/-- What one act of the core can do. -/
inductive Step (s : Stage) : Stage → Prop
  | quiet : Step s s
  | wake {w : ℕ} {y : Seat} (hl : s.loaded = none) (hy : s.seats[w]? = some y)
      (hb : y.state = .blocked) : Step s (s.wake w)
  | join {x : Seat} (hl : s.loaded = none) (hx : s.Fresh x) :
      Step s { s with seats := s.seats ++ [x] }
  | switch {p next : ℕ} {x y : Seat} {st : State} {r r' : Resume} (hl : s.loaded = none)
      (hp : s.current = some p) (hx : s.seats[p]? = some x) (hrun : x.state = .running)
      (hst : st ≠ .running) (hne : p ≠ next) (hy : s.seats[next]? = some y)
      (hready : y.state = .ready) (hctx : y.ctx = .saved r') :
      Step s ((s.leave p st r).enter (some p) next y r')
  | idle {p : ℕ} {x : Seat} {st : State} {r : Resume} (hl : s.loaded = none)
      (hp : s.current = some p) (hx : s.seats[p]? = some x) (hrun : x.state = .running)
      (hst : st ≠ .running) (hb : s.bootstrap = .saved .inStart) :
      Step s ((s.leave p st r).idle p)
  | start {next : ℕ} {y : Seat} {r : Resume} (hl : s.loaded = none) (hcur : s.current = none)
      (hy : s.seats[next]? = some y) (hready : y.state = .ready) (hctx : y.ctx = .saved r) :
      Step s (s.adopt.board.enter none next y r)
  | nothing (hl : s.loaded = none) (hcur : s.current = none) : Step s s.adopt
  | resume {r : Resume} (hr : s.loaded = some r) (hcur : s.current.isSome) : Step s s.settle
  | again {next : ℕ} {y : Seat} {r : Resume} (hr : s.loaded = some .inStart)
      (hcur : s.current = none) (hy : s.seats[next]? = some y) (hready : y.state = .ready)
      (hctx : y.ctx = .saved r) : Step s (s.home.settle.board.enter none next y r)
  | stop (hr : s.loaded = some .inStart) (hcur : s.current = none) : Step s s.home.settle

/-- The current seat `p` is switched away from: it stops in state `st`, to resume at `r`. -/
inductive Away (s : Stage) (p : ℕ) (st : State) (r : Resume) : Stage → Prop
  | switch {next : ℕ} {y : Seat} {r' : Resume} (hne : p ≠ next) (hy : s.seats[next]? = some y)
      (hready : y.state = .ready) (hctx : y.ctx = .saved r') :
      Away s p st r ((s.leave p st r).enter (some p) next y r')
  | idle (hb : s.bootstrap = .saved .inStart) : Away s p st r ((s.leave p st r).idle p)

theorem Away.step {s s' : Stage} {p : ℕ} {st : State} {r : Resume} {x : Seat}
    (h : Away s p st r s') (hl : s.loaded = none) (hp : s.current = some p)
    (hx : s.seats[p]? = some x) (hrun : x.state = .running) (hst : st ≠ .running) : Step s s' := by
  cases h with
  | switch hne hy hready hctx => exact .switch hl hp hx hrun hst hne hy hready hctx
  | idle hb => exact .idle hl hp hx hrun hst hb

end Stage

/-- The seat of a task. -/
def Task.seat (t : Task) : Seat where
  ctx := t.ctx
  stack := t.stack
  top := t.kernelStackTop
  cr3 := t.cr3
  space := t.space.map fun s => (s.root, s.frames)
  state := t.state

/-- The counters the scheduler keeps about parking and reaping. -/
def Stats.tally (s : Stats) : Tally where
  blocks := s.blocks
  wakeups := s.wakeups
  diedBlocked := s.diedBlocked
  reapedStacks := s.reapedStacks
  reapedWords := s.reapedWords
  reapedSpaces := s.reapedSpaces
  reapedFrames := s.reapedFrames

/-- The machine as the scheduler sees it. -/
def Machine.stage (k : Machine) : Stage where
  seats := k.tasks.map Task.seat
  bootstrap := k.bootstrap
  current := k.current
  prev := k.prev
  kernelRoot := k.kernelRoot
  cpu := k.cpu
  loaded := k.loaded
  tally := k.stats.tally

/-- Where messages are, and the counters they pass on their way. -/
structure Wire where
  ipc : Fin numEndpoints → Endpoint
  mailboxes : List (Option KMessage)
  sent : UInt64
  received : UInt64

/-- The machine as the messages see it. -/
def Machine.wire (k : Machine) : Wire where
  ipc := k.ipc
  mailboxes := k.tasks.map Task.mailbox
  sent := k.stats.sent
  received := k.stats.received

/-- What is left of the machine without capabilities, objects and memory. -/
def Machine.seen (k : Machine) : Stage × Wire := (k.stage, k.wire)

end StarOs.Kernel
