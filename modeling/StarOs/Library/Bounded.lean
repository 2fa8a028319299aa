import StarOs.Library.Loop
import Mathlib.Data.List.Basic
import Mathlib.Data.Nat.ModEq
import Mathlib.Tactic.Common

/-! Bounded first-in first-out storage on fixed arrays: a ring that wraps, and a
queue that shifts its tail down. Every operation is described by what it does to
`toList`, the entries in order; `slots` is the whole array, stale entries
included. -/

namespace StarOs.Library

open Loop

variable {α : Type} {cap : ℕ}

/-- A ring of `len` entries starting at `head`. -/
structure Ring (α : Type) (cap : ℕ) where
  slots : Vector α cap
  head : ℕ
  len : ℕ
  head_lt : head < cap
  len_le : len ≤ cap

namespace Ring

/-- The slot `i` places after the head. -/
def cell (r : Ring α cap) (i : ℕ) : α :=
  have hi : (r.head + i) % cap < cap := Nat.mod_lt _ (Nat.zero_lt_of_lt r.head_lt)
  r.slots[(r.head + i) % cap]

/-- The entries, oldest first. -/
def toList (r : Ring α cap) : List α := (List.range r.len).map r.cell

/-- Append `x`, or fail when full. -/
def push (x : α) (r : Ring α cap) : Bool × Ring α cap :=
  if h : r.len = cap then (false, r)
  else
    have hcap : 0 < cap := Nat.zero_lt_of_lt r.head_lt
    (true, { r with
      slots := r.slots.set ((r.head + r.len) % cap) x (Nat.mod_lt _ hcap)
      len := r.len + 1
      len_le := Nat.lt_of_le_of_ne r.len_le h })

/-- Take the oldest entry. Its slot keeps the stale value. -/
def pop (r : Ring α cap) : Option (α × Ring α cap) :=
  if r.len = 0 then none
  else
    have hcap : 0 < cap := Nat.zero_lt_of_lt r.head_lt
    have hhead : r.head < cap := r.head_lt
    some (r.slots[r.head], { r with
      head := (r.head + 1) % cap
      len := r.len - 1
      head_lt := Nat.mod_lt _ hcap
      len_le := Nat.le_trans (Nat.sub_le _ _) r.len_le })

@[simp] theorem length_toList (r : Ring α cap) : r.toList.length = r.len := by simp [toList]

theorem toList_eq_nil (r : Ring α cap) : r.toList = [] ↔ r.len = 0 := by
  rw [← List.length_eq_zero_iff, length_toList]

theorem push_full {r : Ring α cap} (x : α) (h : r.len = cap) : r.push x = (false, r) := by
  simp [push, h]

/-- The write lands past the live entries and disturbs none of them. -/
theorem cell_push {r : Ring α cap} (x : α) (h : r.len < cap) {i : ℕ} (hi : i ≤ r.len) :
    (r.push x).2.cell i = if i = r.len then x else r.cell i := by
  have hne : r.len ≠ cap := Nat.ne_of_lt h
  simp only [push, hne, dite_false, cell, Vector.getElem_set]
  by_cases hil : i = r.len
  · simp [hil]
  · have hmod : (r.head + r.len) % cap ≠ (r.head + i) % cap := by
      intro heq
      have hcong : r.len ≡ i [MOD cap] := Nat.ModEq.add_left_cancel' r.head heq
      exact hil (Nat.ModEq.eq_of_lt_of_lt hcong h (by omega)).symm
    simp [hil, hmod]

theorem toList_push {r : Ring α cap} (x : α) (h : r.len < cap) :
    (r.push x).1 = true ∧ (r.push x).2.toList = r.toList ++ [x] := by
  have hne : r.len ≠ cap := Nat.ne_of_lt h
  have hlen : (r.push x).2.len = r.len + 1 := by simp [push, hne]
  constructor
  · simp [push, hne]
  · simp only [toList, hlen, List.range_succ, List.map_append, List.map_cons, List.map_nil]
    congr 1
    · apply List.map_congr_left
      intro i hi
      have hi : i < r.len := List.mem_range.mp hi
      rw [cell_push x h (Nat.le_of_lt hi), if_neg (Nat.ne_of_lt hi)]
    · rw [cell_push x h (Nat.le_refl _), if_pos rfl]

theorem pop_eq_none {r : Ring α cap} : r.pop = none ↔ r.toList = [] := by
  rw [toList_eq_nil]
  by_cases h : r.len = 0 <;> simp [pop, h]

theorem toList_pop {r r' : Ring α cap} {x : α} (h : r.pop = some (x, r')) :
    r.toList = x :: r'.toList := by
  unfold pop at h
  split at h
  · cases h
  · rename_i hlen
    have hhead : r.head < cap := r.head_lt
    obtain ⟨rfl, rfl⟩ : r.slots[r.head] = x ∧ _ = r' := by simpa using h
    obtain ⟨n, hn⟩ := Nat.exists_eq_succ_of_ne_zero hlen
    simp only [toList, hn, Nat.succ_eq_add_one, List.range_succ_eq_map, List.map_cons, List.map_map,
      Nat.add_sub_cancel]
    congr 1
    · simp [cell, Nat.mod_eq_of_lt r.head_lt]
    · apply List.map_congr_left
      intro i _
      have hidx : (r.head + (i + 1)) % cap = ((r.head + 1) % cap + i) % cap := by
        rw [Nat.mod_add_mod]; congr 1; omega
      simp only [Function.comp_apply, cell, hidx]

theorem mem_slots_push {r : Ring α cap} {x y : α} (h : y ∈ (r.push x).2.slots) :
    y = x ∨ y ∈ r.slots := by
  unfold push at h
  split at h
  · exact .inr h
  · have hidx : (r.head + r.len) % cap < cap := Nat.mod_lt _ (Nat.zero_lt_of_lt r.head_lt)
    change y ∈ r.slots.set ((r.head + r.len) % cap) x hidx at h
    exact (Vector.mem_or_eq_of_mem_set h).symm

theorem mem_slots_pop {r r' : Ring α cap} {x : α} (h : r.pop = some (x, r')) :
    x ∈ r.slots ∧ r'.slots = r.slots := by
  unfold pop at h
  split at h
  · cases h
  · have hhead : r.head < cap := r.head_lt
    obtain ⟨rfl, rfl⟩ : r.slots[r.head] = x ∧ _ = r' := by simpa using h
    exact ⟨Vector.getElem_mem hhead, rfl⟩

end Ring

/-- `slice::copy_within(lo..hi, dst)`: an overlapping move down the array. -/
def copyWithin (v : Vector α cap) (lo hi dst : ℕ) : Vector α cap :=
  Vector.ofFn fun i =>
    if dst ≤ i ∧ i < dst + (hi - lo) then (v[lo + (i - dst)]?).getD v[i] else v[i]

theorem mem_copyWithin {v : Vector α cap} {lo hi dst : ℕ} {x : α}
    (h : x ∈ copyWithin v lo hi dst) : x ∈ v := by
  obtain ⟨i, hi, rfl⟩ := Vector.getElem_of_mem h
  simp only [copyWithin, Vector.getElem_ofFn]
  split
  · cases hv : v[lo + (i - dst)]? with
    | none => simp
    | some y => exact Vector.mem_of_getElem? hv
  · simp

/-- A queue in the first `len` slots of an array. -/
structure ArrayQueue (α : Type) (cap : ℕ) where
  slots : Vector α cap
  len : ℕ
  len_le : len ≤ cap

namespace ArrayQueue

/-- The entries, front first. -/
def toList (q : ArrayQueue α cap) : List α := q.slots.toList.take q.len

/-- Append `x`, or fail when full. -/
def push (x : α) (q : ArrayQueue α cap) : Bool × ArrayQueue α cap :=
  if h : q.len = cap then (false, q)
  else (true, { q with
    slots := q.slots.set q.len x (Nat.lt_of_le_of_ne q.len_le h)
    len := q.len + 1
    len_le := Nat.lt_of_le_of_ne q.len_le h })

/-- Close the gap at `w`: shift everything after it down one slot. -/
def shift (w : ℕ) (q : ArrayQueue α cap) : ArrayQueue α cap where
  slots := copyWithin q.slots (w + 1) q.len w
  len := q.len - 1
  len_le := Nat.le_trans (Nat.sub_le _ _) q.len_le

/-- Take the front entry. -/
def pop (q : ArrayQueue α cap) : Option (α × ArrayQueue α cap) :=
  if h : q.len = 0 then none
  else
    have hcap : 0 < cap := Nat.lt_of_lt_of_le (Nat.pos_of_ne_zero h) q.len_le
    some (q.slots[0], q.shift 0)

/-- The scan that removes every entry satisfying `p` from slot `w` on. -/
def removeFrom (p : α → Bool) (w : ℕ) (q : ArrayQueue α cap) : Bool × ArrayQueue α cap :=
  if h : w < q.len then
    have hw : w < cap := Nat.lt_of_lt_of_le h q.len_le
    if p q.slots[w] then (true, (removeFrom p w (q.shift w)).2)
    else removeFrom p (w + 1) q
  else (false, q)
termination_by q.len - w
decreasing_by
  · simp only [shift]; omega
  · omega

@[simp] theorem length_toList (q : ArrayQueue α cap) : q.toList.length = q.len := by
  simp [toList, q.len_le]

theorem toList_eq_nil (q : ArrayQueue α cap) : q.toList = [] ↔ q.len = 0 := by
  rw [← List.length_eq_zero_iff, length_toList]

theorem getElem?_toList {q : ArrayQueue α cap} {i : ℕ} (hi : i < q.len) :
    q.toList[i]? = q.slots[i]? := by
  rw [toList, List.getElem?_take_of_lt hi, Vector.getElem?_toList]

theorem push_full {q : ArrayQueue α cap} (x : α) (h : q.len = cap) : q.push x = (false, q) := by
  simp [push, h]

theorem toList_push {q : ArrayQueue α cap} (x : α) (h : q.len < cap) :
    (q.push x).1 = true ∧ (q.push x).2.toList = q.toList ++ [x] := by
  have hne : q.len ≠ cap := Nat.ne_of_lt h
  constructor
  · simp [push, hne]
  · have hcap : q.len < q.slots.toList.length := by simpa using h
    simp only [push, hne, dite_false, toList, Vector.toList_set, List.take_add_one,
      List.getElem?_set_self hcap, Option.toList_some]
    rw [List.take_set_of_le (Nat.le_refl _)]

/-- Shifting is erasing the entry at `w`. -/
theorem toList_shift {q : ArrayQueue α cap} {w : ℕ} (hw : w < q.len) :
    (q.shift w).toList = q.toList.eraseIdx w := by
  have hle := q.len_le
  have hlen : (q.shift w).len = q.len - 1 := rfl
  apply List.ext_getElem?
  intro i
  rw [List.getElem?_eraseIdx]
  by_cases hi : i < q.len - 1
  · have hicap : i < cap := by omega
    have hslots : (q.shift w).slots[i]? =
        some (if w ≤ i ∧ i < w + (q.len - (w + 1)) then (q.slots[w + 1 + (i - w)]?).getD q.slots[i]
          else q.slots[i]) := by
      simp [shift, copyWithin, hicap]
    rw [getElem?_toList (by omega), hslots]
    by_cases hiw : i < w
    · rw [if_pos hiw, getElem?_toList (by omega), if_neg (by omega),
        Vector.getElem?_eq_getElem hicap]
    · have hidx : w + 1 + (i - w) = i + 1 := by omega
      have hnext : i + 1 < cap := by omega
      rw [if_neg hiw, getElem?_toList (by omega), if_pos (by omega), hidx,
        Vector.getElem?_eq_getElem hnext]
      rfl
  · have hnone : (q.shift w).toList[i]? = none := by
      rw [List.getElem?_eq_none_iff, length_toList]; omega
    have hrest : q.toList[i + 1]? = none := by
      rw [List.getElem?_eq_none_iff, length_toList]; omega
    rw [hnone, if_neg (by omega), hrest]

theorem pop_eq_none {q : ArrayQueue α cap} : q.pop = none ↔ q.toList = [] := by
  rw [toList_eq_nil]
  by_cases h : q.len = 0 <;> simp [pop, h]

theorem toList_pop {q q' : ArrayQueue α cap} {x : α} (h : q.pop = some (x, q')) :
    q.toList = x :: q'.toList := by
  unfold pop at h
  split at h
  · cases h
  · rename_i hlen
    have hpos : 0 < q.len := Nat.pos_of_ne_zero hlen
    have hcap : 0 < cap := Nat.lt_of_lt_of_le hpos q.len_le
    obtain ⟨rfl, rfl⟩ : q.slots[0] = x ∧ q.shift 0 = q' := by simpa using h
    have hhead : q.toList[0]? = some q.slots[0] := by
      rw [getElem?_toList hpos, Vector.getElem?_eq_getElem hcap]
    rw [toList_shift hpos]
    cases hq : q.toList with
    | nil => simp [hq] at hhead
    | cons y ys =>
      have hy : y = q.slots[0] := by simpa [hq] using hhead
      simp [hy]

theorem drop_toList {q : ArrayQueue α cap} {w : ℕ} (hw : w < q.len) (hcap : w < cap) :
    q.toList.drop w = q.slots[w] :: q.toList.drop (w + 1) := by
  have hget : q.toList[w]? = some q.slots[w] := by
    rw [getElem?_toList hw, Vector.getElem?_eq_getElem hcap]
  rw [List.drop_eq_getElem?_toList_append, hget]
  rfl

theorem take_toList_succ {q : ArrayQueue α cap} {w : ℕ} (hw : w < q.len) (hcap : w < cap) :
    q.toList.take (w + 1) = q.toList.take w ++ [q.slots[w]] := by
  rw [List.take_add_one, getElem?_toList hw, Vector.getElem?_eq_getElem hcap]
  rfl

/-- The removal scan is a filter: everything from `w` on that satisfies `p` goes,
the rest keeps its order, and the answer says whether anything went. -/
theorem removeFrom_spec (p : α → Bool) (w : ℕ) (q : ArrayQueue α cap) :
    (removeFrom p w q).1 = (q.toList.drop w).any p ∧
    (removeFrom p w q).2.toList = q.toList.take w ++ (q.toList.drop w).filter (fun x => !p x) := by
  fun_induction removeFrom p w q with
  | case1 w q h hw hp ih =>
    have htake : (q.shift w).toList.take w = q.toList.take w := by
      rw [toList_shift h, List.eraseIdx_eq_take_drop_succ, List.take_left' (by simp; omega)]
    have hrest : (q.shift w).toList.drop w = q.toList.drop (w + 1) := by
      rw [toList_shift h, List.eraseIdx_eq_take_drop_succ, List.drop_left' (by simp; omega)]
    constructor
    · simp [drop_toList h hw, hp]
    · rw [ih.2, htake, hrest, drop_toList h hw]
      simp [hp]
  | case2 w q h hw hp ih =>
    constructor
    · rw [ih.1, drop_toList h hw]; simp [hp]
    · rw [ih.2, take_toList_succ h hw, drop_toList h hw]; simp [hp]
  | case3 w q h =>
    have hlen : q.toList.length ≤ w := by rw [length_toList]; omega
    simp [List.drop_eq_nil_of_le hlen, List.take_of_length_le hlen]

/-- One turn of the scan as a loop: an entry that satisfies `p` goes and the next one moves up to
`w`, any other is stepped over. -/
def scanTurn (p : α → Bool) : ℕ × Bool × ArrayQueue α cap → Option (ℕ × Bool × ArrayQueue α cap)
  | (w, found, q) =>
    if h : w < q.len then
      have hw : w < cap := Nat.lt_of_lt_of_le h q.len_le
      if p q.slots[w] then some (w, true, q.shift w) else some (w + 1, found, q)
    else none

theorem removeFrom_hit {p : α → Bool} {w : ℕ} {q : ArrayQueue α cap} (h : w < q.len)
    (hw : w < cap) (hp : p q.slots[w]) :
    removeFrom p w q = (true, (removeFrom p w (q.shift w)).2) := by
  rw [removeFrom, dif_pos h, if_pos hp]

theorem removeFrom_miss {p : α → Bool} {w : ℕ} {q : ArrayQueue α cap} (h : w < q.len)
    (hw : w < cap) (hp : ¬p q.slots[w]) : removeFrom p w q = removeFrom p (w + 1) q := by
  rw [removeFrom, dif_pos h, if_neg hp]

theorem removeFrom_end {p : α → Bool} {w : ℕ} {q : ArrayQueue α cap} (h : ¬w < q.len) :
    removeFrom p w q = (false, q) := by
  rw [removeFrom, dif_neg h]

/-- The loop is over after a turn for each entry, and has done what the scan does. -/
theorem scan_ends (p : α → Bool) (w : ℕ) (q : ArrayQueue α cap) (found : Bool) (turns : ℕ)
    (h : q.len ≤ w + turns) : ∃ w', whileSome (scanTurn p) turns (w, found, q) =
      some (w', found || (removeFrom p w q).1, (removeFrom p w q).2) := by
  induction turns generalizing w q found with
  | zero =>
    have hstop : scanTurn p (w, found, q) = none := by
      simp only [scanTurn, dif_neg (show ¬w < q.len by omega)]
    refine ⟨w, ?_⟩
    rw [whileSome_stop hstop, removeFrom_end (by omega), Bool.or_false]
  | succ turns ih =>
    by_cases hlt : w < q.len
    · have hw : w < cap := Nat.lt_of_lt_of_le hlt q.len_le
      by_cases hp : p q.slots[w]
      · have hturn : scanTurn p (w, found, q) = some (w, true, q.shift w) := by
          simp only [scanTurn, dif_pos hlt, if_pos hp]
        have hshort : (q.shift w).len ≤ w + turns := by
          simp only [shift]
          omega
        obtain ⟨w', hrest⟩ := ih w (q.shift w) true hshort
        refine ⟨w', ?_⟩
        rw [whileSome_turn hturn, hrest, removeFrom_hit hlt hw hp, Bool.true_or, Bool.or_true]
      · have hturn : scanTurn p (w, found, q) = some (w + 1, found, q) := by
          simp only [scanTurn, dif_pos hlt, if_neg hp]
        obtain ⟨w', hrest⟩ := ih (w + 1) q found (by omega)
        refine ⟨w', ?_⟩
        rw [whileSome_turn hturn, hrest, removeFrom_miss hlt hw hp]
    · have hstop : scanTurn p (w, found, q) = none := by simp only [scanTurn, dif_neg hlt]
      refine ⟨w, ?_⟩
      rw [whileSome_stop hstop, removeFrom_end hlt, Bool.or_false]

/-- With nothing to remove the scan leaves the queue as it is, stale slots included. -/
theorem removeFrom_of_forall (p : α → Bool) (w : ℕ) (q : ArrayQueue α cap)
    (h : ∀ x ∈ q.toList.drop w, p x = false) : removeFrom p w q = (false, q) := by
  fun_induction removeFrom p w q with
  | case1 w q hlt hw hp ih =>
    have hno := h q.slots[w] (by rw [drop_toList hlt hw]; exact List.mem_cons_self)
    rw [hp] at hno
    cases hno
  | case2 w q hlt hw hp ih =>
    apply ih
    intro x hx
    apply h x
    rw [drop_toList hlt hw]
    exact List.mem_cons_of_mem _ hx
  | case3 w q hlt => rfl

theorem mem_slots_push {q : ArrayQueue α cap} {x y : α} (h : y ∈ (q.push x).2.slots) :
    y = x ∨ y ∈ q.slots := by
  unfold push at h
  split at h
  · exact .inr h
  · rename_i hne
    have hlen : q.len < cap := Nat.lt_of_le_of_ne q.len_le hne
    change y ∈ q.slots.set q.len x hlen at h
    exact (Vector.mem_or_eq_of_mem_set h).symm

theorem mem_slots_pop {q q' : ArrayQueue α cap} {x : α} (h : q.pop = some (x, q')) :
    x ∈ q.slots ∧ ∀ y ∈ q'.slots, y ∈ q.slots := by
  unfold pop at h
  split at h
  · cases h
  · rename_i hlen
    have hcap : 0 < cap := Nat.lt_of_lt_of_le (Nat.pos_of_ne_zero hlen) q.len_le
    obtain ⟨rfl, rfl⟩ : q.slots[0] = x ∧ q.shift 0 = q' := by simpa using h
    exact ⟨Vector.getElem_mem hcap, fun y => mem_copyWithin⟩

end ArrayQueue

end StarOs.Library
