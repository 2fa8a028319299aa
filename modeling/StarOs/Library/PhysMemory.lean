import Mathlib.Data.List.GetD
import StarOs.Library.Slice

/-! Physical memory as bytes at natural addresses: filling and copying, little-endian words, and
records written as the concatenation of their fields, which are read back one after the other. -/

namespace StarOs.Library

abbrev PhysMemory := ℕ → UInt8

namespace PhysMemory

/-- `write_bytes` -/
def fill (a n : ℕ) (b : UInt8) (m : PhysMemory) : PhysMemory :=
  fun x => if a ≤ x ∧ x < a + n then b else m x

/-- `copy_nonoverlapping` -/
def copy (a : ℕ) (bytes : List UInt8) (m : PhysMemory) : PhysMemory :=
  fun x => if a ≤ x ∧ x < a + bytes.length then bytes.getD (x - a) 0 else m x

/-- The `n` bytes from `a` on. -/
def bytesAt (a n : ℕ) (m : PhysMemory) : List UInt8 := (List.range n).map fun i => m (a + i)

/-- The word at `a`. -/
def word (a : ℕ) (m : PhysMemory) : UInt64 := fromLeBytes (m.bytesAt a 8)

/-- The two memories have the same bytes from `a` up to `b`. -/
def Same (a b : ℕ) (m m' : PhysMemory) : Prop := ∀ x, a ≤ x → x < b → m' x = m x

end PhysMemory

/-- `u64::to_le_bytes` -/
def leBytes (w : UInt64) : List UInt8 :=
  (List.range 8).map fun k => (w >>> UInt64.ofNat (8 * k)).toUInt8

/-- `u32::to_le_bytes` -/
def leBytes32 (w : UInt32) : List UInt8 := (leBytes w.toUInt64).take 4

/-- Takes a `u64` off the front. -/
def takeU64 (bytes : List UInt8) : UInt64 × List UInt8 :=
  (fromLeBytes (bytes.take 8), bytes.drop 8)

/-- Takes a `u32` off the front. -/
def takeU32 (bytes : List UInt8) : UInt32 × List UInt8 :=
  ((fromLeBytes (bytes.take 4)).toUInt32, bytes.drop 4)

section

variable {m m' m'' : PhysMemory} {a b n x : ℕ} {bytes : List UInt8} {w : UInt64}

@[simp] theorem length_leBytes (w : UInt64) : (leBytes w).length = 8 := by simp [leBytes]

@[simp] theorem length_leBytes32 (w : UInt32) : (leBytes32 w).length = 4 := by simp [leBytes32]

theorem word_ext {v w : UInt64}
    (h : ∀ k < 8, (v >>> UInt64.ofNat (8 * k)).toUInt8 = (w >>> UInt64.ofNat (8 * k)).toUInt8) :
    v = w := by
  apply UInt64.toNat_inj.mp
  have hk (k : ℕ) (hk : k < 8) : v.toNat / 2 ^ (8 * k) % 256 = w.toNat / 2 ^ (8 * k) % 256 := by
    rw [← shifted_byte v hk, ← shifted_byte w hk, h k hk]
  have hv := v.toNat_lt
  have hw := w.toNat_lt
  have h0 := hk 0 (by decide)
  have h1 := hk 1 (by decide)
  have h2 := hk 2 (by decide)
  have h3 := hk 3 (by decide)
  have h4 := hk 4 (by decide)
  have h5 := hk 5 (by decide)
  have h6 := hk 6 (by decide)
  have h7 := hk 7 (by decide)
  omega

theorem getD_leBytes (w : UInt64) {k : ℕ} (hk : k < 8) :
    (leBytes w).getD k 0 = (w >>> UInt64.ofNat (8 * k)).toUInt8 := by
  simp [leBytes, List.getD_eq_getElem?_getD, List.getElem?_range hk]

@[simp] theorem fromLeBytes_leBytes (w : UInt64) : fromLeBytes (leBytes w) = w :=
  word_ext fun k hk => by rw [fromLeBytes_byte _ hk, getD_leBytes w hk]

@[simp] theorem fromLeBytes_leBytes32 (w : UInt32) :
    fromLeBytes (leBytes32 w) = w.toUInt64 := by
  refine word_ext fun k hk => ?_
  rw [fromLeBytes_byte _ hk, leBytes32]
  by_cases hlow : k < 4
  · rw [← getD_leBytes _ hk]
    simp only [List.getD_eq_getElem?_getD, List.getElem?_take_of_lt hlow]
  · rw [List.getD_eq_getElem?_getD, List.getElem?_eq_none (by simp; omega)]
    apply UInt8.toNat_inj.mp
    rw [shifted_byte _ hk, UInt32.toNat_toUInt64]
    have hw := w.toNat_lt
    have hpow : 2 ^ 32 ≤ 2 ^ (8 * k) := Nat.pow_le_pow_right (by decide) (by omega)
    rw [Nat.div_eq_of_lt (by omega)]
    rfl

@[simp] theorem takeU64_append (w : UInt64) (rest : List UInt8) :
    takeU64 (leBytes w ++ rest) = (w, rest) := by
  rw [takeU64, List.take_left' (length_leBytes w), List.drop_left' (length_leBytes w),
    fromLeBytes_leBytes]

@[simp] theorem takeU32_append (w : UInt32) (rest : List UInt8) :
    takeU32 (leBytes32 w ++ rest) = (w, rest) := by
  rw [takeU32, List.take_left' (length_leBytes32 w), List.drop_left' (length_leBytes32 w),
    fromLeBytes_leBytes32, UInt32.toUInt32_toUInt64]

namespace PhysMemory

theorem fill_at (b : UInt8) (ha : a ≤ x) (hx : x < a + n) : m.fill a n b x = b := if_pos ⟨ha, hx⟩

theorem fill_apart (b : UInt8) (h : x < a ∨ a + n ≤ x) : m.fill a n b x = m x :=
  if_neg (by omega)

theorem copy_at (ha : a ≤ x) (hx : x < a + bytes.length) :
    m.copy a bytes x = bytes.getD (x - a) 0 := if_pos ⟨ha, hx⟩

theorem copy_apart (h : x < a ∨ a + bytes.length ≤ x) : m.copy a bytes x = m x := if_neg (by omega)

@[simp] theorem length_bytesAt : (m.bytesAt a n).length = n := by simp [bytesAt]

theorem getD_bytesAt {i : ℕ} (hi : i < n) : (m.bytesAt a n).getD i 0 = m (a + i) := by
  simp [bytesAt, List.getD_eq_getElem?_getD, List.getElem?_range hi]

theorem Same.refl : Same a b m m := fun _ _ _ => rfl

theorem Same.trans (h : Same a b m m') (h' : Same a b m' m'') : Same a b m m'' :=
  fun x ha hb => (h' x ha hb).trans (h x ha hb)

theorem Same.mono {a' b' : ℕ} (h : Same a b m m') (ha : a ≤ a') (hb : b' ≤ b) : Same a' b' m m' :=
  fun x hlo hhi => h x (by omega) (by omega)

theorem Same.bytesAt (h : Same a (a + n) m m') : m'.bytesAt a n = m.bytesAt a n := by
  refine List.map_congr_left fun i hi => ?_
  have hi := List.mem_range.mp hi
  exact h _ (by omega) (by omega)

theorem same_fill (v : UInt8) {c : ℕ} (h : b ≤ c ∨ c + n ≤ a) : Same a b m (m.fill c n v) :=
  fun x _ _ => fill_apart v (by omega)

theorem same_copy {c : ℕ} (h : b ≤ c ∨ c + bytes.length ≤ a) : Same a b m (m.copy c bytes) :=
  fun x _ _ => copy_apart (by omega)

/-- What was copied is there. -/
theorem bytesAt_copy (m : PhysMemory) (a : ℕ) (bytes : List UInt8) :
    (m.copy a bytes).bytesAt a bytes.length = bytes := by
  refine List.ext_getElem (by simp) fun i hi hi' => ?_
  have hat : m.copy a bytes (a + i) = bytes.getD i 0 := by
    rw [copy_at (by omega) (by omega), Nat.add_sub_cancel_left]
  simp [bytesAt, hat, List.getD_eq_getElem?_getD, hi']

theorem copy_append (m : PhysMemory) (a : ℕ) (front back : List UInt8) :
    m.copy a (front ++ back) = (m.copy a front).copy (a + front.length) back := by
  funext x
  simp only [copy, List.length_append]
  by_cases hfront : x < a + front.length
  · rw [if_neg (fun h => absurd h.1 (by omega) : ¬(a + front.length ≤ x ∧ _))]
    by_cases ha : a ≤ x
    · rw [if_pos ⟨ha, by omega⟩, if_pos ⟨ha, hfront⟩, List.getD_append _ _ _ _ (by omega)]
    · rw [if_neg (fun h => ha h.1), if_neg (fun h => ha h.1)]
  · by_cases hback : x < a + front.length + back.length
    · rw [if_pos ⟨by omega, by omega⟩, if_pos ⟨by omega, hback⟩,
        List.getD_append_right _ _ _ _ (by omega), Nat.sub_sub]
    · rw [if_neg (by omega), if_neg (by omega), if_neg (by omega)]

@[simp] theorem word_copy_leBytes (m : PhysMemory) (a : ℕ) (w : UInt64) :
    (m.copy a (leBytes w)).word a = w := by
  have hbytes := bytesAt_copy m a (leBytes w)
  rw [length_leBytes] at hbytes
  rw [word, hbytes, fromLeBytes_leBytes]

theorem Same.word (h : Same a (a + 8) m m') : m'.word a = m.word a :=
  congrArg fromLeBytes h.bytesAt

/-- A word that did not change leaves its bytes as they were. -/
theorem same_of_word (h : m'.word a = m.word a) : Same a (a + 8) m m' := by
  intro x ha hx
  obtain ⟨k, rfl⟩ := Nat.exists_eq_add_of_le ha
  have hbyte (m : PhysMemory) : m (a + k) = (m.word a >>> UInt64.ofNat (8 * k)).toUInt8 := by
    rw [PhysMemory.word, fromLeBytes_byte _ (by omega), getD_bytesAt (by omega)]
  rw [hbyte m', hbyte m, h]

end PhysMemory

end

end StarOs.Library
