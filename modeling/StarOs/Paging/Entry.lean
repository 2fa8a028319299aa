import Mathlib.Algebra.Group.Nat.Defs
import Mathlib.Tactic.Common
import Mathlib.Tactic.FinCases

/-! Page-table entries: the bits, the rights and the memory type they encode, and what
the encodings give back when they are read. -/

namespace StarOs.Paging

def pageSize : UInt64 := 4096
def size2M : UInt64 := 2 * 1024 * 1024
def size1G : UInt64 := 1024 * 1024 * 1024

def ptePresent : UInt64 := (1 : UInt64) <<< 0
def pteWrite : UInt64 := (1 : UInt64) <<< 1
def pteUser : UInt64 := (1 : UInt64) <<< 2
def ptePwt : UInt64 := (1 : UInt64) <<< 3
def ptePcd : UInt64 := (1 : UInt64) <<< 4
def pteHuge : UInt64 := (1 : UInt64) <<< 7
def pteNx : UInt64 := (1 : UInt64) <<< 63
def pteAddrMask : UInt64 := 0x000FFFFFFFFFF000

@[ext]
structure Rights where
  write : Bool
  exec : Bool
  user : Bool
  deriving DecidableEq

namespace Rights

def ro : Rights := ⟨false, false, false⟩
def rw : Rights := ⟨true, false, false⟩
def rx : Rights := ⟨false, true, false⟩

def toUser (r : Rights) : Rights := { r with user := true }

def isWx (r : Rights) : Bool := r.write && r.exec

def leafBits (r : Rights) : UInt64 :=
  ptePresent ||| (if r.write then pteWrite else 0) ||| (if r.user then pteUser else 0) |||
    (if r.exec then 0 else pteNx)

def fromBits (bits : UInt64) : Rights where
  write := bits &&& pteWrite != 0
  exec := bits &&& pteNx == 0
  user := bits &&& pteUser != 0

def intersect (r r' : Rights) : Rights where
  write := r.write && r'.write
  exec := r.exec && r'.exec
  user := r.user && r'.user

theorem intersect_assoc (a b c : Rights) :
    (a.intersect b).intersect c = a.intersect (b.intersect c) := by
  simp [intersect, Bool.and_assoc]

theorem intersect_self (r : Rights) : r.intersect r = r := by simp [intersect]

theorem all_intersect (r : Rights) : intersect ⟨true, true, true⟩ r = r := by simp [intersect]

end Rights

inductive MemoryType where
  | normal | device
  deriving DecidableEq

namespace MemoryType

def leafBits : MemoryType → UInt64
  | normal => 0
  | device => ptePcd ||| ptePwt

def fromBits (bits : UInt64) : MemoryType := if bits &&& ptePcd != 0 then device else normal

end MemoryType

inductive MapError where
  | misaligned | outOfFrames | largePageCollision
  deriving DecidableEq

def MapError.asStr : MapError → String
  | misaligned => "mapping request is not page-aligned"
  | outOfFrames => "no free frame for a page table"
  | largePageCollision => "mapping collides with an existing large page"

/-- `x.is_multiple_of(n)` -/
def isMultipleOf (x n : UInt64) : Bool := x % n == 0

/-- `x.next_multiple_of(n)`, which wraps where it overflows. -/
def nextMultipleOf (x n : UInt64) : UInt64 :=
  if x % n == 0 then x else x + (n - x % n)

def fits (virt phys left size : UInt64) : Bool :=
  isMultipleOf virt size && isMultipleOf phys size && decide (size ≤ left)

def levelSize : ℕ → UInt64
  | 0 => pageSize
  | 1 => size2M
  | _ => size1G

def index (virt : UInt64) (level : ℕ) : ℕ :=
  ((virt >>> UInt64.ofNat (12 + 9 * level)) &&& 0x1FF).toNat

def intermediateBits (needed : Rights) : UInt64 :=
  ptePresent ||| pteWrite ||| (if needed.user then pteUser else 0)

def present (e : UInt64) : Bool := e &&& ptePresent != 0

def huge (e : UInt64) : Bool := e &&& pteHuge != 0

/-! ### Reading entries back -/

theorem and_or_distrib (a b c : UInt64) : (a ||| b) &&& c = (a &&& c) ||| (b &&& c) :=
  UInt64.toBitVec_inj.mp BitVec.and_or_distrib_right

theorem and_shifted_ones (x k n : ℕ) : x &&& ((2 ^ n - 1) <<< k) = x / 2 ^ k % 2 ^ n * 2 ^ k := by
  apply Nat.eq_of_testBit_eq
  intro i
  rw [Nat.testBit_and, Nat.testBit_shiftLeft, Nat.testBit_two_pow_sub_one, ← Nat.shiftLeft_eq,
    Nat.testBit_shiftLeft, Nat.testBit_mod_two_pow, ← Nat.shiftRight_eq_div_pow,
    Nat.testBit_shiftRight]
  by_cases hi : k ≤ i
  · simp [hi, Bool.and_comm]
  · simp [hi]

theorem toNat_addr (e : UInt64) : (e &&& pteAddrMask).toNat = e.toNat / 4096 % 2 ^ 40 * 4096 := by
  rw [UInt64.toNat_and, show pteAddrMask.toNat = (2 ^ 40 - 1) <<< 12 by decide]
  exact and_shifted_ones e.toNat 12 40

/-- An address that fits the address field of an entry. -/
def Framed (phys : UInt64) : Prop := phys &&& pteAddrMask = phys

theorem framed_iff {phys : UInt64} :
    Framed phys ↔ phys.toNat % 4096 = 0 ∧ phys.toNat < 2 ^ 52 := by
  rw [Framed, ← UInt64.toNat_inj, toNat_addr]
  omega

theorem Framed.and_eq_zero {phys m : UInt64} (h : Framed phys) (hm : pteAddrMask &&& m = 0) :
    phys &&& m = 0 := by
  rw [← h, UInt64.and_assoc, hm, UInt64.and_zero]

section Bits

variable {phys e : UInt64} {r : Rights} {m : MemoryType}

/-- The flags are not in the address field. -/
theorem Framed.flag (h : Framed phys) (flag : UInt64)
    (hf : flag ∈ [ptePresent, pteWrite, pteUser, ptePcd, pteHuge, pteNx]) : phys &&& flag = 0 := by
  refine h.and_eq_zero ?_
  fin_cases hf <;> decide

theorem intermediateBits_present : intermediateBits r &&& ptePresent = ptePresent := by
  unfold intermediateBits; cases r.user <;> decide

theorem intermediateBits_huge : intermediateBits r &&& pteHuge = 0 := by
  unfold intermediateBits; cases r.user <;> decide

theorem intermediateBits_addr : intermediateBits r &&& pteAddrMask = 0 := by
  unfold intermediateBits; cases r.user <;> decide

theorem intermediateBits_write : intermediateBits r &&& pteWrite = pteWrite := by
  unfold intermediateBits; cases r.user <;> decide

theorem intermediateBits_nx : intermediateBits r &&& pteNx = 0 := by
  unfold intermediateBits; cases r.user <;> decide

theorem intermediateBits_user :
    intermediateBits r &&& pteUser = if r.user then pteUser else 0 := by
  unfold intermediateBits; cases r.user <;> decide

theorem or_ne_zero (a : UInt64) {b : UInt64} (h : b ≠ 0) : a ||| b ≠ 0 := by
  intro hz
  exact h (UInt64.or_eq_zero_iff.mp hz).2

/-- Widening an entry keeps where it points and takes no right away. -/
theorem widened_entry :
    present (e ||| intermediateBits r) ∧ huge (e ||| intermediateBits r) = huge e ∧
      (e ||| intermediateBits r) &&& pteAddrMask = e &&& pteAddrMask ∧
      Rights.fromBits (e ||| intermediateBits r) =
        ⟨true, (Rights.fromBits e).exec, (Rights.fromBits e).user || r.user⟩ := by
  simp only [present, huge, Rights.fromBits, and_or_distrib, intermediateBits_present,
    intermediateBits_huge, intermediateBits_addr, intermediateBits_write, intermediateBits_nx,
    intermediateBits_user, UInt64.or_zero, true_and, Rights.mk.injEq]
  refine ⟨?_, ?_, ?_⟩
  · simpa using or_ne_zero _ (by decide)
  · simpa using or_ne_zero _ (by decide)
  · cases r.user
    · simp
    · simpa using or_ne_zero _ (by decide)

/-- An entry that points to a table. -/
theorem intermediate_entry (h : Framed phys) :
    present (phys ||| intermediateBits r) ∧ huge (phys ||| intermediateBits r) = false ∧
      (phys ||| intermediateBits r) &&& pteAddrMask = phys ∧
      Rights.fromBits (phys ||| intermediateBits r) = ⟨true, true, r.user⟩ := by
  obtain ⟨hpresent, hhuge, haddr, hrights⟩ := @widened_entry phys r
  refine ⟨hpresent, ?_, haddr.trans h, ?_⟩
  · rw [hhuge, huge, h.flag _ (by simp)]
    rfl
  · rw [hrights, Rights.fromBits, h.flag _ (by simp), h.flag _ (by simp), h.flag _ (by simp)]
    simp

/-- A leaf gives back the address, the rights and the memory type it was made of. -/
theorem leaf_entry (h : Framed phys) (big : Bool) :
    let e := phys ||| r.leafBits ||| m.leafBits ||| if big then pteHuge else 0
    present e ∧ huge e = big ∧ e &&& pteAddrMask = phys ∧ Rights.fromBits e = r ∧
      MemoryType.fromBits e = m := by
  have hflags : ∀ (w x u : Bool), let c := Rights.leafBits ⟨w, x, u⟩ ||| m.leafBits |||
      if big then pteHuge else 0
      present c ∧ huge c = big ∧ c &&& pteAddrMask = 0 ∧ Rights.fromBits c = ⟨w, x, u⟩ ∧
        MemoryType.fromBits c = m := by
    cases m <;> cases big <;> decide
  obtain ⟨w, x, u⟩ := r
  obtain ⟨hp, hh, ha, hr, hm⟩ := hflags w x u
  simp only [UInt64.or_assoc] at hp hh ha hr hm ⊢
  simp only [present, huge, Rights.fromBits, MemoryType.fromBits, and_or_distrib phys,
    h.flag ptePresent (by simp), h.flag pteHuge (by simp),
    h.flag pteWrite (by simp), h.flag pteNx (by simp),
    h.flag pteUser (by simp), h.flag ptePcd (by simp), UInt64.zero_or]
  exact ⟨hp, hh, by rw [ha, UInt64.or_zero]; exact h, hr, hm⟩

/-- The low flags of a leaf are those it was made with, as long as the address is aligned; of the
address it keeps what fits. -/
theorem leaf_low (h : phys.toNat % 4096 = 0) (big : Bool) :
    let e := phys ||| r.leafBits ||| m.leafBits ||| if big then pteHuge else 0
    present e ∧ huge e = big ∧ (Rights.fromBits e).user = r.user ∧
      (r.exec = false → Rights.fromBits e = r) ∧ e &&& pteAddrMask = phys &&& pteAddrMask := by
  have hlow : ∀ flag : UInt64, flag &&& 0xFFF = flag → phys &&& flag = 0 := by
    intro flag hflag
    have hphys : phys &&& 0xFFF = 0 := by
      rw [← UInt64.toNat_inj, UInt64.toNat_and, show (0xFFF : UInt64).toNat = 2 ^ 12 - 1 by decide,
        Nat.and_two_pow_sub_one_eq_mod]
      simpa using h
    rw [← hflag, UInt64.and_comm flag, ← UInt64.and_assoc, hphys, UInt64.zero_and]
  have hflags : ∀ (w x u : Bool), let c := Rights.leafBits ⟨w, x, u⟩ ||| m.leafBits |||
      if big then pteHuge else 0
      present c ∧ huge c = big ∧ (Rights.fromBits c).user = u ∧ (Rights.fromBits c).write = w ∧
        (x = false → c &&& pteNx = pteNx) ∧ c &&& pteAddrMask = 0 := by
    cases m <;> cases big <;> decide
  obtain ⟨w, x, u⟩ := r
  obtain ⟨hp, hh, hu, hw, hx, ha⟩ := hflags w x u
  simp only [UInt64.or_assoc] at hp hh hu hw hx ha ⊢
  simp only [present, huge, Rights.fromBits, and_or_distrib phys, hlow ptePresent (by decide),
    hlow pteHuge (by decide), hlow pteUser (by decide), hlow pteWrite (by decide), UInt64.zero_or]
  refine ⟨hp, hh, hu, fun hexec => ?_, by rw [ha, UInt64.or_zero]⟩
  have hnx : ((phys &&& pteNx) ||| pteNx == 0) = false := by
    rw [beq_eq_false_iff_ne, Ne, UInt64.or_eq_zero_iff]
    exact fun hzero => absurd hzero.2 (by decide)
  rw [hx hexec, hnx, ← hexec]
  exact congrArg₂ (fun w u => Rights.mk w x u) hw hu

end Bits

/-! ### Sizes and indices -/

/-- Without overflow it is the least multiple from `x` on. -/
theorem nextMultipleOf_spec {x n : UInt64} (hn : 0 < n.toNat) (h : x.toNat + n.toNat ≤ 2 ^ 64) :
    (nextMultipleOf x n).toNat % n.toNat = 0 ∧ x.toNat ≤ (nextMultipleOf x n).toNat ∧
      (nextMultipleOf x n).toNat < x.toNat + n.toNat := by
  have hdiv := Nat.div_add_mod x.toNat n.toNat
  have hlt := Nat.mod_lt x.toNat hn
  unfold nextMultipleOf
  split
  · next hzero =>
    have hmod : x.toNat % n.toNat = 0 := by
      rw [← UInt64.toNat_mod, beq_iff_eq.mp hzero]
      rfl
    exact ⟨hmod, le_rfl, by omega⟩
  · next hpos =>
    have hmod : x.toNat % n.toNat ≠ 0 := by
      intro hzero
      apply hpos
      rw [beq_iff_eq]
      apply UInt64.toNat_inj.mp
      rw [UInt64.toNat_mod, hzero]
      rfl
    have hgap : (n - x % n).toNat = n.toNat - x.toNat % n.toNat := by
      rw [UInt64.toNat_sub_of_le, UInt64.toNat_mod]
      rw [UInt64.le_iff_toNat_le, UInt64.toNat_mod]
      exact hlt.le
    have hsum : (x + (n - x % n)).toNat = n.toNat * (x.toNat / n.toNat + 1) := by
      rw [UInt64.toNat_add, hgap, Nat.mod_eq_of_lt (by omega), Nat.mul_add, Nat.mul_one]
      omega
    rw [hsum]
    refine ⟨Nat.mul_mod_right _ _, ?_, ?_⟩
    · rw [Nat.mul_add, Nat.mul_one]
      omega
    · rw [Nat.mul_add, Nat.mul_one]
      omega

theorem levelSize_toNat (level : ℕ) : (levelSize level).toNat = 2 ^ (12 + 9 * min level 2) := by
  match level with
  | 0 => rfl
  | 1 => rfl
  | level + 2 =>
    rw [show min (level + 2) 2 = 2 by omega]
    rfl

/-- The offset in a page, and the page an address is rounded down to. -/
theorem page_parts (x : UInt64) (level : ℕ) :
    (x &&& (levelSize level - 1)).toNat = x.toNat % (levelSize level).toNat ∧
      (x &&& ~~~(levelSize level - 1)).toNat =
        x.toNat / (levelSize level).toNat * (levelSize level).toNat := by
  have hx := x.toNat_lt
  have hparts : ∀ (k : ℕ) (s : UInt64), k ≤ 64 → s.toNat = 2 ^ k → (s - 1).toNat = 2 ^ k - 1 →
      (~~~(s - 1)).toNat = (2 ^ (64 - k) - 1) <<< k →
      (x &&& (s - 1)).toNat = x.toNat % s.toNat ∧
        (x &&& ~~~(s - 1)).toNat = x.toNat / s.toNat * s.toNat := by
    intro k s hk hs hlow hhigh
    constructor
    · rw [UInt64.toNat_and, hlow, hs, Nat.and_two_pow_sub_one_eq_mod]
    · rw [UInt64.toNat_and, hhigh, hs, and_shifted_ones, Nat.mod_eq_of_lt]
      rw [Nat.div_lt_iff_lt_mul (Nat.two_pow_pos k), ← Nat.pow_add]
      rwa [show 64 - k + k = 64 by omega]
  match level with
  | 0 => exact hparts 12 _ (by omega) rfl (by decide) (by decide)
  | 1 => exact hparts 21 _ (by omega) rfl (by decide) (by decide)
  | level + 2 => exact hparts 30 size1G (by omega) rfl (by decide) (by decide)

theorem index_eq {virt : UInt64} {level : ℕ} (h : level ≤ 3) :
    index virt level = virt.toNat / 2 ^ (12 + 9 * level) % 512 := by
  have hshift : (UInt64.ofNat (12 + 9 * level)).toNat = 12 + 9 * level := by
    rw [UInt64.toNat_ofNat_of_lt']
    simp [UInt64.size]
    omega
  rw [index, UInt64.toNat_and, UInt64.toNat_shiftRight, hshift,
    show (0x1FF : UInt64).toNat = 2 ^ 9 - 1 by decide, Nat.and_two_pow_sub_one_eq_mod,
    Nat.shiftRight_eq_div_pow, Nat.mod_eq_of_lt (by omega : 12 + 9 * level < 64)]

theorem index_lt (virt : UInt64) (level : ℕ) : index virt level < 512 := by
  rw [index, UInt64.toNat_and, show (0x1FF : UInt64).toNat = 2 ^ 9 - 1 by decide,
    Nat.and_two_pow_sub_one_eq_mod]
  exact Nat.mod_lt _ (by omega)

end StarOs.Paging
