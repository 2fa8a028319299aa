import Mathlib.Data.List.Range
import Mathlib.Tactic.Common

/-! Registers that hold a bit for each line of an interrupt controller: the first and the last
line set, and a line set or cleared. -/

namespace StarOs.Library.Lines

variable {n : ℕ}

/-- The lowest line set in `w`. -/
def lowest (w : BitVec n) : Option ℕ := (List.range n).find? fun i => w.getLsbD i

/-- The highest line set in `w`. -/
def highest (w : BitVec n) : Option ℕ := (List.range n).reverse.find? fun i => w.getLsbD i

def setLine (w : BitVec n) (i : ℕ) : BitVec n := w ||| BitVec.twoPow n i

def clearLine (w : BitVec n) (i : ℕ) : BitVec n := w &&& ~~~(BitVec.twoPow n i)

variable {w : BitVec n} {i j : ℕ}

theorem lowest_eq_some :
    lowest w = some i ↔ w.getLsbD i = true ∧ ∀ k < i, w.getLsbD k = false := by
  rw [lowest, List.find?_range_eq_some]
  constructor
  · rintro ⟨hi, -, hlow⟩
    exact ⟨hi, fun k hk => by simpa using hlow k hk⟩
  · rintro ⟨hi, hlow⟩
    exact ⟨hi, List.mem_range.mpr (BitVec.lt_of_getLsbD hi), fun k hk => by simp [hlow k hk]⟩

theorem eq_zero_iff : w = 0 ↔ ∀ k < n, w.getLsbD k = false := by
  constructor
  · rintro rfl k -
    simp
  · intro h
    apply BitVec.eq_of_getLsbD_eq
    intro k hk
    simpa using h k hk

theorem lowest_eq_none : lowest w = none ↔ w = 0 := by
  rw [lowest, List.find?_eq_none, eq_zero_iff]
  simp

theorem highest_eq_none : highest w = none ↔ w = 0 := by
  rw [highest, List.find?_eq_none, eq_zero_iff]
  simp

theorem getLsbD_of_highest (h : highest w = some i) : w.getLsbD i = true := List.find?_some h

@[simp] theorem lowest_zero : lowest (0 : BitVec n) = none := lowest_eq_none.mpr rfl

@[simp] theorem highest_zero : highest (0 : BitVec n) = none := highest_eq_none.mpr rfl

theorem lowest_isSome (h : w.getLsbD i = true) : (lowest w).isSome = true := by
  rw [Option.isSome_iff_ne_none, ne_eq, lowest_eq_none]
  rintro rfl
  simp at h

theorem lowest_lt (h : lowest w = some i) : i < n := BitVec.lt_of_getLsbD (lowest_eq_some.mp h).1

@[simp] theorem getLsbD_setLine :
    (setLine w i).getLsbD j = (w.getLsbD j || (decide (j < n) && i == j)) := by
  simp only [setLine, BitVec.getLsbD_or, BitVec.getLsbD_twoPow]
  by_cases hj : j < n <;> by_cases hij : i = j <;> simp_all

@[simp] theorem getLsbD_clearLine : (clearLine w i).getLsbD j = (w.getLsbD j && !(i == j)) := by
  simp only [clearLine, BitVec.getLsbD_and, BitVec.getLsbD_not, BitVec.getLsbD_twoPow]
  by_cases hj : j < n
  · by_cases hij : i = j <;> simp_all
  · simp [BitVec.getLsbD_of_ge w j (by omega)]

section single

theorem eq_of_single (h : (setLine (0 : BitVec n) i).getLsbD j = true) : j = i := by
  rw [getLsbD_setLine] at h
  simp at h
  exact h.2.symm

theorem single_ne_zero (hi : i < n) : setLine (0 : BitVec n) i ≠ 0 := by
  intro h
  have hb : (setLine (0 : BitVec n) i).getLsbD i = true := getLsbD_setLine.trans (by simp [hi])
  rw [h] at hb
  simp at hb

theorem lowest_single (hi : i < n) : lowest (setLine (0 : BitVec n) i) = some i := by
  cases h : lowest (setLine (0 : BitVec n) i) with
  | none => exact absurd (lowest_eq_none.mp h) (single_ne_zero hi)
  | some j => rw [eq_of_single (lowest_eq_some.mp h).1]

theorem highest_single (hi : i < n) : highest (setLine (0 : BitVec n) i) = some i := by
  cases h : highest (setLine (0 : BitVec n) i) with
  | none => exact absurd (highest_eq_none.mp h) (single_ne_zero hi)
  | some j => rw [eq_of_single (getLsbD_of_highest h)]

theorem clearLine_single : clearLine (setLine (0 : BitVec n) i) i = 0 := by
  apply BitVec.eq_of_getLsbD_eq
  intro j hj
  by_cases h : i = j <;> simp [h]

end single

end StarOs.Library.Lines
