import Mathlib.Algebra.GroupWithZero.Nat
import Mathlib.Data.List.Basic
import Mathlib.Tactic.Common

/-! Counting in a list that is updated in place. -/

namespace StarOs.Library

variable {α : Type} {p : α → Bool} {f : α → α} {l : List α} {i : ℕ} {x : α}

/-- One for yes, none for no. -/
def tick (b : Bool) : ℕ := if b then 1 else 0

@[simp] theorem tick_true : tick true = 1 := rfl

@[simp] theorem tick_false : tick false = 0 := rfl

theorem countP_eq_sum (p : α → Bool) (l : List α) :
    l.countP p = (l.map fun x => tick (p x)).sum := by
  induction l with
  | nil => rfl
  | cons x l ih => rw [List.countP_cons, ih, List.map_cons, List.sum_cons, Nat.add_comm]; rfl

/-- An update of one element moves the count by that element alone. -/
theorem countP_modify (p : α → Bool) (f : α → α) (hx : l[i]? = some x) :
    (l.modify i f).countP p + tick (p x) = l.countP p + tick (p (f x)) := by
  induction l generalizing i with
  | nil => cases hx
  | cons y l ih =>
    cases i with
    | zero =>
      obtain rfl : y = x := by simpa using hx
      simp only [List.modify_zero_cons, List.countP_cons, tick]
      omega
    | succ i =>
      have hrest := ih (by simpa using hx)
      simp only [List.modify_succ_cons, List.countP_cons]
      omega

theorem countP_modify_of_eq (p : α → Bool) (f : α → α) (hx : l[i]? = some x)
    (h : p (f x) = p x) : (l.modify i f).countP p = l.countP p := by
  have hcount := countP_modify p f hx
  rw [h] at hcount
  omega

/-- Two elements that count are two in the count. -/
theorem two_le_countP {j : ℕ} {y : α} (hij : i < j) (hx : l[i]? = some x) (hy : l[j]? = some y)
    (hpx : p x) (hpy : p y) : 2 ≤ l.countP p := by
  have htake : (l.take j)[i]? = some x := by rwa [List.getElem?_take_of_lt hij]
  have hdrop : (l.drop j)[0]? = some y := by simpa using hy
  have hleft := List.countP_pos_iff.mpr ⟨x, List.mem_of_getElem? htake, hpx⟩
  have hright := List.countP_pos_iff.mpr ⟨y, List.mem_of_getElem? hdrop, hpy⟩
  rw [← List.take_append_drop j l, List.countP_append]
  omega

/-- Where nothing counts twice, no two elements share a property. -/
theorem pairwise_of_countP_le_one {β : Type} {q : β → α → Bool} (h : ∀ b, l.countP (q b) ≤ 1) :
    l.Pairwise fun x y => ∀ b, ¬(q b x = true ∧ q b y = true) := by
  rw [List.pairwise_iff_getElem]
  rintro i j hi hj hij b ⟨hx, hy⟩
  have htwo := two_le_countP hij (List.getElem?_eq_getElem hi) (List.getElem?_eq_getElem hj) hx hy
  have hone := h b
  omega

end StarOs.Library
