import StarOs.Library.LocalApic

/-! The driver of one core's local APIC, as far as it receives: the enable and the end of an
interrupt. -/

namespace StarOs.Arch.Lapic

open Library Library.Lines

class Mmio32 (M : Type) where
  read : M → ℕ → BitVec 32
  write : M → ℕ → BitVec 32 → M

def taskPriority : ℕ := 0x080
def eoi : ℕ := 0x0B0
def spurious : ℕ := 0x0F0
def lvtTimer : ℕ := 0x320
def lvtLint0 : ℕ := 0x350
def lvtLint1 : ℕ := 0x360
def lvtError : ℕ := 0x370

def spuriousEnable : BitVec 32 := 1#32 <<< 8
def lvtMasked : BitVec 32 := 1#32 <<< 16

structure LocalApic (M : Type) where
  regs : M

namespace LocalApic

variable {M : Type} [Mmio32 M] (lapic : LocalApic M)

/-- `self.regs.write(offset, value)` -/
def write (offset : ℕ) (value : BitVec 32) : LocalApic M := ⟨Mmio32.write lapic.regs offset value⟩

def enable (spuriousVector : BitVec 8) : LocalApic M :=
  let lapic := lapic.write taskPriority 0
  let lapic := [lvtTimer, lvtLint0, lvtLint1].foldl (fun lapic lvt => lapic.write lvt lvtMasked) lapic
  let lapic := lapic.write lvtError (lvtMasked ||| spuriousVector.zeroExtend 32)
  lapic.write spurious (spuriousEnable ||| spuriousVector.zeroExtend 32)

def isEnabled : Bool := Mmio32.read lapic.regs spurious &&& spuriousEnable != 0

def endOfInterrupt : LocalApic M := lapic.write eoi 0

end LocalApic

instance : Mmio32 LocalApic.Apic where
  read := LocalApic.Apic.read
  write := LocalApic.Apic.write

namespace LocalApic

variable {a : Library.LocalApic.Apic} {b : BitVec 8}

/-- Only registers are written: every priority is let through, and the spurious vector set. -/
theorem enable_spec : ∃ regs, regs taskPriority = 0 ∧
    regs spurious = spuriousEnable ||| b.zeroExtend 32 ∧
    (LocalApic.mk a).enable b = ⟨{ a with regs }⟩ :=
  ⟨_, rfl, Function.update_self .., rfl⟩

theorem spurious_low : (spuriousEnable ||| b.zeroExtend 32).toNat % 256 = b.toNat := by
  revert b
  decide +kernel

theorem spurious_enabled : (spuriousEnable ||| b.zeroExtend 32).getLsbD 8 = true := by
  revert b
  decide +kernel

theorem spurious_and : (spuriousEnable ||| b.zeroExtend 32) &&& spuriousEnable != 0 := by
  revert b
  decide +kernel

theorem isEnabled_enable : ((LocalApic.mk a).enable b).isEnabled = true := by
  obtain ⟨regs, -, hs, h⟩ := enable_spec (a := a) (b := b)
  rw [h]
  show (regs spurious &&& spuriousEnable != 0) = true
  rw [hs]
  exact spurious_and

end LocalApic

end StarOs.Arch.Lapic
