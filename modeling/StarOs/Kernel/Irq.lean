import StarOs.Arch.LocalApic
import StarOs.Arch.Pic
import StarOs.Arch.Trap
import StarOs.Library.Run

/-! Device interrupts of the boot core: which controller is acknowledged and what is counted.
The 8259s deliver until the local APIC takes over. A machine is the kernel's own record beside
the chips, and what the processor is doing about an interrupt; the lines move at any time, the
kernel's calls only while no interrupt is being taken. -/

namespace StarOs.Kernel.Irq

open Arch Arch.Pic Arch.Lapic
open Library (Run)
open Library.I8259 (Pair)
open Library.I8259.Pair (Cause)
open Library.LocalApic (Apic)
open Library.Lines

def picBase : ℕ := 32
def irqTimer : ℕ := 0
def apicTimerVector : ℕ := 48
def lapicTimerVector : ℕ := 49
def apicSpuriousVector : BitVec 8 := 255

/-- The statics of the module, and the word of the page that ring 3 reads. -/
structure Statics (P M : Type) where
  pic : Pic8259 P
  lapic : Option (LocalApic M)
  usingApic : Bool
  timerVector : ℕ
  apicSpurious : UInt64
  ticks : UInt64
  unexpected : UInt64
  ticksFromRing3 : UInt64
  spurious : UInt64
  clock : Option UInt64
  needResched : Bool

/-- The statics as the kernel image has them. -/
def start {P M : Type} (io : P) : Statics P M :=
  ⟨.new io, none, false, picBase + irqTimer, 0, 0, 0, 0, 0, none, false⟩

section handlers

variable {P M : Type} [PortIo P] [Mmio32 M] (k : Statics P M)

/-- `usermode::publish_ticks` -/
def publishTicks (ticks : UInt64) : Statics P M := { k with clock := k.clock.map fun _ => ticks }

/-- `sched::request_resched` -/
def requestResched : Statics P M := { k with needResched := true }

def isDeviceVector (vector : BitVec 64) : Bool := decide (picBase ≤ vector.toNat ∧ vector.toNat < 256)

def dispatchPic (frame : Arch.TrapFrame) : Statics P M :=
  -- the vector is at least `PIC_BASE`: an exception is not dispatched
  let irq := frame.vector.toNat - picBase
  if irq < 256 ∧ irq < lines then
    let (spurious, pic) := k.pic.isSpurious irq
    if spurious then
      { k with spurious := k.spurious + 1, pic := pic.endOfSpurious irq }
    else
      let k := if irq = irqTimer then { k with ticks := k.ticks + 1 }
        else { k with unexpected := k.unexpected + 1 }
      { k with pic := pic.endOfInterrupt irq }
  else { k with unexpected := k.unexpected + 1 }

def dispatchApic (frame : Arch.TrapFrame) : Statics P M :=
  let vector := frame.vector.toNat % 256
  if vector = apicSpuriousVector.toNat then { k with apicSpurious := k.apicSpurious + 1 }
  else
    let k :=
      if vector = k.timerVector then
        let k := { k with ticks := k.ticks + 1 }
        let k := if frame.fromUser then { k with ticksFromRing3 := k.ticksFromRing3 + 1 } else k
        requestResched (publishTicks k k.ticks)
      else { k with unexpected := k.unexpected + 1 }
    { k with lapic := k.lapic.map LocalApic.endOfInterrupt }

def dispatch (frame : Arch.TrapFrame) : Statics P M :=
  if k.usingApic then dispatchApic k frame else dispatchPic k frame

/-- `on_trap`, or none where it goes on to take the vector for an exception. -/
def onTrap (frame : Arch.TrapFrame) : Option (Statics P M) :=
  if isDeviceVector frame.vector then some (dispatch k frame) else none

/-- `init`, up to its report: none where an assertion fails. -/
def init : Option (Statics P M) := (k.pic.remap picBase).map fun pic => { k with pic }

/-- `init_apic`: the registers of the local APIC as they were mapped, and whether an I/O APIC
was declared and mapped. -/
def initApic (regs : Except String M) (ioApic : Option (Except String Unit)) :
    Statics P M × Except String Unit :=
  let k := { k with pic := k.pic.maskAll }
  match regs with
  | .error e => (k, .error e)
  | .ok regs =>
    let lapic := (LocalApic.mk regs).enable apicSpuriousVector
    let k := { k with lapic := some lapic }
    if !lapic.isEnabled then (k, .error "the local APIC did not come up enabled")
    else
      match ioApic with
      | none => (k, .error "the MADT declares no I/O APIC")
      | some (.error e) => (k, .error e)
      | some (.ok _) => ({ k with usingApic := true }, .ok ())

end handlers

/-- Why the processor was interrupted. -/
inductive Source where
  | pic (c : Cause)
  | apic (vector : ℕ)
  | apicSpurious
  deriving DecidableEq, Repr

/-- What the processor is doing about interrupts. -/
inductive Phase where
  | idle
  | noticed
  | handling (frame : Arch.TrapFrame) (source : Source)

/-- What has happened to the counters: interrupts handled, with the timer's vector as it then
was and the ring they cut off, and the stores of 0 to the ticks. -/
inductive Record where
  | handled (source : Source) (timerVector : ℕ) (fromUser : Bool)
  | reset
  deriving DecidableEq, Repr

structure Machine where
  irq : Statics Pair Apic
  phase : Phase
  /-- the latest first -/
  log : List Record

inductive Act where
  | raise (line : ℕ)
  | lower (line : ℕ)
  | settle
  | request (vector : ℕ)
  | notice
  | take
  | handle
  | unmask (line : ℕ)
  | mask (line : ℕ)
  | initApic
  | setTimerVector (vector : ℕ)
  | resetTicks
  | openClock

namespace Machine

variable (m : Machine)

def setPair (p : Pair) : Machine := { m with irq := { m.irq with pic := { m.irq.pic with io := p } } }

def setApic (a : Apic) : Machine := { m with irq := { m.irq with lapic := some ⟨a⟩ } }

/-- The vectors that devices are routed to: neither an exception's nor the spurious one. -/
def Routed (vector : ℕ) : Prop := 32 ≤ vector ∧ vector < 255

/-- The controller in charge asks for the processor. -/
def asks : Bool :=
  if m.irq.usingApic then
    match m.irq.lapic with
    | some l => l.regs.pending.isSome
    | none => false
  else m.irq.pic.io.master.int

/-- The processor asks the controller in charge for a vector, and why it was given. -/
def acknowledge : Option (Machine × ℕ × Source) :=
  if m.irq.usingApic then
    m.irq.lapic.map fun l =>
      (m.setApic l.regs.acknowledge.1, l.regs.acknowledge.2,
        match l.regs.pending with
        | some v => .apic v
        | none => .apicSpurious)
  else
    let p := m.irq.pic.io
    some (m.setPair p.acknowledge.1, p.acknowledge.2.toNat, .pic p.cause)

end Machine

open Irq.Machine in
/-- A request may be withdrawn after the processor has noticed it. -/
inductive Step (m : Machine) : Act → Machine → Prop where
  | raise {i : ℕ} (hi : i < 16) (hw : i ≠ cascadeIrq) :
      Step m (.raise i) (m.setPair (m.irq.pic.io.raise i))
  | lower {i : ℕ} (hi : i < 16) (hw : i ≠ cascadeIrq) :
      Step m (.lower i) (m.setPair (m.irq.pic.io.lower i))
  | settle : Step m .settle (m.setPair m.irq.pic.io.settle)
  | request {v : ℕ} {l : LocalApic Apic} (hv : Routed v) (hl : m.irq.lapic = some l) :
      Step m (.request v) (m.setApic (l.regs.request v))
  | notice (hp : m.phase = .idle) (ha : m.asks = true) :
      Step m .notice { m with phase := .noticed }
  | take {m' : Machine} {v : ℕ} {s : Source} {frame : Arch.TrapFrame} (hp : m.phase = .noticed)
      (ha : m.acknowledge = some (m', v, s)) (hv : frame.vector.toNat = v) :
      Step m .take { m' with phase := .handling frame s }
  | handle {frame : Arch.TrapFrame} {s : Source} {k : Statics Pair Apic}
      (hp : m.phase = .handling frame s) (hk : onTrap m.irq frame = some k) :
      Step m .handle ⟨k, .idle, .handled s m.irq.timerVector frame.fromUser :: m.log⟩
  | unmask {i : ℕ} (hp : m.phase = .idle) (hu : m.irq.usingApic = false) (hi : i < 16) :
      Step m (.unmask i) { m with irq := { m.irq with pic := m.irq.pic.unmask i } }
  | mask {i : ℕ} (hp : m.phase = .idle) (hu : m.irq.usingApic = false) (hi : i < 16) :
      Step m (.mask i) { m with irq := { m.irq with pic := m.irq.pic.mask i } }
  /-- The chip comes with nothing in service and nothing requested that is not routed. -/
  | initApic {regs : Except String Apic} {ioApic : Option (Except String Unit)}
      (hp : m.phase = .idle) (hl : m.irq.lapic = none)
      (hr : ∀ a, regs = .ok a → a.isr = 0 ∧ ∀ v, a.irr.getLsbD v = true → Routed v) :
      Step m .initApic { m with irq := (Irq.initApic m.irq regs ioApic).1 }
  | setTimerVector {v : ℕ} (hp : m.phase = .idle) :
      Step m (.setTimerVector v) { m with irq := { m.irq with timerVector := v } }
  | resetTicks (hp : m.phase = .idle) :
      Step m .resetTicks { m with irq := { m.irq with ticks := 0 }, log := .reset :: m.log }
  | openClock (hp : m.phase = .idle) :
      Step m .openClock { m with irq := { m.irq with clock := some m.irq.ticks } }

/-- The machine once `init` has returned, from a firmware that left nothing in service. -/
def Boot (m : Machine) : Prop :=
  ∃ p : Pair, p.Quiet ∧ init (start p) = some m.irq ∧ m.phase = .idle ∧ m.log = []

end StarOs.Kernel.Irq
