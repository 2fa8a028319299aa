import Mathlib.Algebra.Group.Nat.Defs
import Mathlib.Data.List.Basic
import Mathlib.Tactic.Common

/-! Byte slices with checked accesses. Direct indexing out of range, an addition or
a multiplication that overflows the machine word and a division by zero are faults;
the `get` family answers `none` instead. `Agree n` relates two slices that share
their first `n` bytes: a read below `n` does not tell them apart. -/

namespace StarOs.Library

inductive Fault where
  | outOfRange
  | overflow
  | divideByZero
  /-- a walk that was given too few turns -/
  | unfinished
  deriving DecidableEq

abbrev Checked := Except Fault

theorem checked_bind {α β : Type} (a : α) (f : α → Checked β) : (Except.ok a >>= f) = f a := rfl

/-- No slice is longer than `isize::MAX` bytes. -/
def isizeMax : ℕ := 2 ^ 63 - 1

@[ext] structure Slice where
  bytes : List UInt8
  length_le : bytes.length ≤ isizeMax
  deriving DecidableEq

/-- `a + b` on the machine word. -/
def add (a b : ℕ) : Checked ℕ := if a + b < 2 ^ 64 then .ok (a + b) else .error .overflow

/-- `a * b` on the machine word. -/
def mul (a b : ℕ) : Checked ℕ := if a * b < 2 ^ 64 then .ok (a * b) else .error .overflow

/-- `a + b` of two `u64`. -/
def addWord (a b : UInt64) : Checked UInt64 :=
  if a.toNat + b.toNat < 2 ^ 64 then .ok (a + b) else .error .overflow

/-- `a - b` of two `u64`. -/
def subWord (a b : UInt64) : Checked UInt64 :=
  if b ≤ a then .ok (a - b) else .error .overflow

/-- `a.checked_add(b)`. -/
def checkedAdd (a b : ℕ) : Option ℕ := if a + b < 2 ^ 64 then some (a + b) else none

/-- `x.checked_next_multiple_of(n)`. -/
def checkedNextMultipleOf (x n : ℕ) : Option ℕ :=
  if n = 0 then none
  else if x % n = 0 then some x
  else checkedAdd x (n - x % n)

/-- `a.checked_mul(b)`. -/
def checkedMul (a b : ℕ) : Option ℕ := if a * b < 2 ^ 64 then some (a * b) else none

def div (a b : ℕ) : Checked ℕ := if b = 0 then .error .divideByZero else .ok (a / b)

/-- The little-endian number the bytes spell. -/
def fromLeBytes (bytes : List UInt8) : UInt64 :=
  bytes.foldr (fun b n => n <<< 8 ||| b.toUInt64) 0

theorem add_eq {a b : ℕ} (h : a + b < 2 ^ 64) : add a b = .ok (a + b) := if_pos h

theorem mul_eq {a b : ℕ} (h : a * b < 2 ^ 64) : mul a b = .ok (a * b) := if_pos h

theorem addWord_eq {a b : UInt64} (h : a.toNat + b.toNat < 2 ^ 64) :
    addWord a b = .ok (a + b) ∧ (a + b).toNat = a.toNat + b.toNat :=
  ⟨if_pos h, by rw [UInt64.toNat_add, Nat.mod_eq_of_lt h]⟩

theorem subWord_eq {a b : UInt64} (h : b.toNat ≤ a.toNat) :
    subWord a b = .ok (a - b) ∧ (a - b).toNat = a.toNat - b.toNat :=
  ⟨if_pos (UInt64.le_iff_toNat_le.mpr h), UInt64.toNat_sub_of_le _ _ (UInt64.le_iff_toNat_le.mpr h)⟩

theorem checkedAdd_eq {a b c : ℕ} (h : checkedAdd a b = some c) : c = a + b := by
  unfold checkedAdd at h
  split at h
  · exact (Option.some.inj h).symm
  · cases h

theorem checkedAdd_lt {a b c : ℕ} (h : checkedAdd a b = some c) : c < 2 ^ 64 := by
  unfold checkedAdd at h
  split at h
  · next hlt => rwa [← Option.some.inj h]
  · cases h

theorem checkedNextMultipleOf_spec {x n y : ℕ} (h : checkedNextMultipleOf x n = some y)
    (hx : x < 2 ^ 64) : y % n = 0 ∧ x ≤ y ∧ y < 2 ^ 64 := by
  unfold checkedNextMultipleOf at h
  split at h
  · cases h
  · next hn =>
    split at h
    · next hmod =>
      obtain rfl := Option.some.inj h
      exact ⟨hmod, Nat.le_refl _, hx⟩
    · have hlt := Nat.mod_lt x (Nat.pos_of_ne_zero hn)
      have hdiv := Nat.div_add_mod x n
      have hsum : y = n * (x / n + 1) := by
        rw [checkedAdd_eq h, Nat.mul_add, Nat.mul_one]
        omega
      refine ⟨hsum ▸ Nat.mul_mod_right _ _, ?_, checkedAdd_lt h⟩
      rw [checkedAdd_eq h]
      omega

theorem shifted_byte (x : UInt64) {k : ℕ} (hk : k < 8) :
    (x >>> UInt64.ofNat (8 * k)).toUInt8.toNat = x.toNat / 2 ^ (8 * k) % 256 := by
  have hshift : (UInt64.ofNat (8 * k)).toNat = 8 * k :=
    UInt64.toNat_ofNat_of_lt' (by rw [UInt64.size]; omega)
  rw [UInt64.toNat_toUInt8, UInt64.toNat_shiftRight, hshift, Nat.mod_eq_of_lt (by omega : 8 * k < 64),
    Nat.shiftRight_eq_div_pow]

theorem pushed_byte (n : UInt64) (b : UInt8) :
    (n <<< 8 ||| b.toUInt64).toNat = (n.toNat * 256 + b.toNat) % 2 ^ 64 := by
  have hb := b.toNat_lt
  rw [UInt64.toNat_or, UInt64.toNat_shiftLeft, UInt8.toNat_toUInt64,
    show (8 : UInt64).toNat % 64 = 8 from rfl, Nat.shiftLeft_eq]
  have hmul : n.toNat * 2 ^ 8 % 2 ^ 64 = (n.toNat % 2 ^ 56) <<< 8 := by
    rw [Nat.shiftLeft_eq]
    omega
  rw [hmul, ← Nat.shiftLeft_add_eq_or_of_lt (by omega : b.toNat < 2 ^ 8), Nat.shiftLeft_eq]
  omega

/-- Byte `k` of the word the bytes spell. -/
theorem fromLeBytes_byte (bytes : List UInt8) {k : ℕ} (hk : k < 8) :
    (fromLeBytes bytes >>> UInt64.ofNat (8 * k)).toUInt8 = bytes.getD k 0 := by
  apply UInt8.toNat_inj.mp
  rw [shifted_byte _ hk]
  induction bytes generalizing k with
  | nil => simp [fromLeBytes]
  | cons b bytes ih =>
    have hb := b.toNat_lt
    have hword : (fromLeBytes (b :: bytes)).toNat =
        ((fromLeBytes bytes).toNat * 256 + b.toNat) % 2 ^ 64 := pushed_byte _ b
    rw [hword]
    cases k with
    | zero =>
      rw [List.getD_cons_zero]
      omega
    | succ k =>
      rw [List.getD_cons_succ, ← ih (by omega)]
      have hcases : k = 0 ∨ k = 1 ∨ k = 2 ∨ k = 3 ∨ k = 4 ∨ k = 5 ∨ k = 6 := by omega
      obtain rfl | rfl | rfl | rfl | rfl | rfl | rfl := hcases <;> omega

namespace Slice

def length (s : Slice) : ℕ := s.bytes.length

/-- The bytes from `a` up to `b`. -/
def sub (s : Slice) (a b : ℕ) : Slice where
  bytes := (s.bytes.take b).drop a
  length_le := by
    have := s.length_le
    simp only [List.length_drop, List.length_take]
    omega

/-- `s.get(a..b)`. -/
def get (s : Slice) (a b : ℕ) : Option Slice :=
  if a ≤ b ∧ b ≤ s.length then some (s.sub a b) else none

/-- `&s[a..b]`. -/
def range (s : Slice) (a b : ℕ) : Checked Slice :=
  if a ≤ b ∧ b ≤ s.length then .ok (s.sub a b) else .error .outOfRange

/-- `s.get(i)`. -/
def getByte (s : Slice) (i : ℕ) : Option UInt8 := s.bytes[i]?

/-- `s[i]`. -/
def index (s : Slice) (i : ℕ) : Checked UInt8 :=
  match s.bytes[i]? with
  | some b => .ok b
  | none => .error .outOfRange

/-- The byte at `i`, where there is one. -/
def byte (s : Slice) (i : ℕ) : UInt8 := s.bytes.getD i 0

/-- The number in the `n` bytes from `off` on. -/
def readLe (s : Slice) (off n : ℕ) : Option UInt64 := do
  let stop ← checkedAdd off n
  let b ← s.get off stop
  return fromLeBytes b.bytes

variable {s t : Slice} {a b i n : ℕ}

theorem length_lt (s : Slice) : s.length < 2 ^ 63 := by
  have h := s.length_le
  simp only [length, isizeMax] at *
  omega

@[simp] theorem length_sub (s : Slice) (a b : ℕ) : (s.sub a b).length = min b s.length - a := by
  simp [sub, length]

theorem get_eq (hab : a ≤ b) (hb : b ≤ s.length) : s.get a b = some (s.sub a b) :=
  if_pos ⟨hab, hb⟩

theorem get_eq_none (hba : b < a) : s.get a b = none := if_neg (by omega)

theorem range_eq (hab : a ≤ b) (hb : b ≤ s.length) : s.range a b = .ok (s.sub a b) :=
  if_pos ⟨hab, hb⟩

theorem index_eq (h : i < s.length) : s.index i = .ok (s.byte i) := by
  have hget : s.bytes[i]? = some s.bytes[i] := List.getElem?_eq_getElem h
  simp only [index, byte, List.getD_eq_getElem?_getD, hget, Option.getD_some]

theorem byte_sub (h : a + i < b) : (s.sub a b).byte i = s.byte (a + i) := by
  simp only [byte, sub, List.getD_eq_getElem?_getD, List.getElem?_drop,
    List.getElem?_take_of_lt h]

theorem getByte_eq (h : i < s.length) : s.getByte i = some (s.byte i) := by
  have hget : s.bytes[i]? = some s.bytes[i] := List.getElem?_eq_getElem h
  simp only [getByte, byte, List.getD_eq_getElem?_getD, hget, Option.getD_some]

theorem getByte_eq_none (h : s.length ≤ i) : s.getByte i = none := List.getElem?_eq_none h

/-- The two slices share their first `n` bytes. -/
structure Agree (n : ℕ) (s t : Slice) : Prop where
  length_left : n ≤ s.length
  length_right : n ≤ t.length
  take : s.bytes.take n = t.bytes.take n

theorem agree_of_take (h : n ≤ s.length) (ht : t.bytes.take n = s.bytes.take n) :
    Agree n s t := by
  refine ⟨h, ?_, ht.symm⟩
  have hlen := congrArg List.length ht
  simp only [List.length_take, length] at *
  omega

theorem Agree.byte (h : Agree n s t) (hi : i < n) : s.byte i = t.byte i := by
  have hget : s.bytes[i]? = t.bytes[i]? := by
    rw [← List.getElem?_take_of_lt hi, h.take, List.getElem?_take_of_lt hi]
  simp only [Slice.byte, List.getD_eq_getElem?_getD, hget]

theorem Agree.sub (h : Agree n s t) (hb : b ≤ n) : s.sub a b = t.sub a b := by
  apply Slice.ext
  have htake : s.bytes.take b = t.bytes.take b := by
    rw [← Nat.min_eq_left hb, ← List.take_take, h.take, List.take_take]
  simp only [Slice.sub, htake]

end Slice

/-- `(0..n).filter_map(f)`, run to its end. -/
def filterMapRange {α : Type} : ℕ → (ℕ → Checked (Option α)) → Checked (List α)
  | 0, _ => .ok []
  | n + 1, f => do
    let l ← filterMapRange n f
    match ← f n with
    | some a => .ok (l ++ [a])
    | none => .ok l

theorem filterMapRange_ok {α : Type} {n : ℕ} {f : ℕ → Checked (Option α)}
    (h : ∀ i < n, ∃ r, f i = .ok r) : ∃ l, filterMapRange n f = .ok l := by
  induction n with
  | zero => exact ⟨[], rfl⟩
  | succ n ih =>
    obtain ⟨l, hl⟩ := ih fun i hi => h i (by omega)
    obtain ⟨r, hr⟩ := h n (by omega)
    cases r with
    | some a => exact ⟨l ++ [a], by simp only [filterMapRange, hl, checked_bind, hr]⟩
    | none => exact ⟨l, by simp only [filterMapRange, hl, checked_bind, hr]⟩

end StarOs.Library
