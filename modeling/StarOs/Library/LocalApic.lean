import Mathlib.Logic.Function.Basic
import StarOs.Library.Lines

/-! The local APIC as a receiver of interrupts: 256 vectors, served highest first, in priority
classes of 16. A vector is delivered when its class is above the task priority and above every
class in service; the end of an interrupt retires the highest vector in service. A chip that is
asked for a vector with none to deliver answers with its spurious vector and serves nothing. -/

namespace StarOs.Library.LocalApic

open Lines

def taskPriority : ℕ := 0x80
def endOfInterrupt : ℕ := 0xB0
def spurious : ℕ := 0xF0

structure Apic where
  /-- the registers that read back what was written -/
  regs : ℕ → BitVec 32
  /-- the vectors requested -/
  irr : BitVec 256
  /-- the vectors in service -/
  isr : BitVec 256

namespace Apic

variable (a : Apic)

def read (offset : ℕ) : BitVec 32 := if offset = endOfInterrupt then 0 else a.regs offset

def write (offset : ℕ) (value : BitVec 32) : Apic :=
  if offset = endOfInterrupt then
    match highest a.isr with
    | some v => { a with isr := clearLine a.isr v }
    | none => a
  else { a with regs := Function.update a.regs offset value }

def enabled : Bool := (a.regs spurious).getLsbD 8

def spuriousVector : ℕ := (a.regs spurious).toNat % 256

/-- The class that a vector has to be above. -/
def class_ : ℕ :=
  max ((a.regs taskPriority).toNat % 256 / 16)
    (match highest a.isr with
      | some v => v / 16
      | none => 0)

/-- The vector to deliver next. -/
def pending : Option ℕ :=
  match highest a.irr with
  | some v => if a.enabled && decide (a.class_ < v / 16) then some v else none
  | none => none

def request (v : ℕ) : Apic := { a with irr := setLine a.irr v }

/-- `v` is delivered. -/
def serve (v : ℕ) : Apic := { a with irr := clearLine a.irr v, isr := setLine a.isr v }

/-- The processor asks for a vector. -/
def acknowledge : Apic × ℕ :=
  match a.pending with
  | some v => (a.serve v, v)
  | none => (a, a.spuriousVector)

section lemmas

variable {a} {v : ℕ} {value : BitVec 32}

theorem of_pending (h : a.pending = some v) : v < 256 ∧ a.irr.getLsbD v = true ∧ 16 ≤ v := by
  unfold pending at h
  split at h
  · rename_i u hu
    split at h
    · rename_i hc
      cases h
      have hb := getLsbD_of_highest hu
      have hlt : a.class_ < v / 16 := by simpa using (Bool.and_eq_true_iff.mp hc).2
      exact ⟨BitVec.lt_of_getLsbD hb, hb, by omega⟩
    · cases h
  · cases h

/-- The end of an interrupt retires the only vector in service. -/
theorem write_eoi_single (hv : v < 256) (h : a.isr = setLine 0 v) :
    (a.write endOfInterrupt value).isr = 0 ∧ (a.write endOfInterrupt value).regs = a.regs ∧
    (a.write endOfInterrupt value).irr = a.irr := by
  rw [write, if_pos rfl, h, highest_single hv]
  exact ⟨clearLine_single, rfl, rfl⟩

theorem acknowledge_regs : a.acknowledge.1.regs = a.regs := by
  unfold acknowledge
  split <;> rfl

theorem acknowledge_irr {u : ℕ} (h : a.acknowledge.1.irr.getLsbD u = true) :
    a.irr.getLsbD u = true := by
  unfold acknowledge at h
  cases hp : a.pending with
  | none =>
    rw [hp] at h
    exact h
  | some v =>
    rw [hp] at h
    exact (Bool.and_eq_true_iff.mp (getLsbD_clearLine.symm.trans h)).1

theorem acknowledge_isr (h : a.isr = 0) : a.acknowledge.1.isr =
    match a.pending with
    | some v => setLine 0 v
    | none => 0 := by
  unfold acknowledge
  cases a.pending with
  | none => exact h
  | some v => exact congrArg (setLine · v) h

end lemmas

end Apic

end StarOs.Library.LocalApic
