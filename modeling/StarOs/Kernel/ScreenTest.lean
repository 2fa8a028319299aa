import StarOs.Acpi.Entries
import StarOs.Bootinfo.Handoff

/-! The geometry of a screen that `is_sane` accepts, and the self-test that draws on its corners
before anything else does. The test multiplies in 32 bits, the drawing in 64. -/

namespace StarOs.Bootinfo.Framebuffer

open Library

/-- `is_sane` where overflow is checked: a product that does not fit is a fault. -/
def isSaneChecked (fb : Framebuffer) : Checked Bool :=
  if fb.phys ≠ 0 && fb.width > 0 && fb.height > 0 then
    if fb.width.toNat * 4 < 2 ^ 32 then .ok (fb.stride ≥ fb.width * 4) else .error .overflow
  else .ok false

/-- A row is as long as its pixels, and every pixel is among the bytes of the buffer. -/
structure Contains (fb : Framebuffer) : Prop where
  stride : 4 * fb.width.toNat ≤ fb.stride.toNat
  pixel : ∀ x < fb.width.toNat, ∀ y < fb.height.toNat,
    y * fb.stride.toNat + 4 * x + 4 ≤ fb.bytes.toNat

variable {fb : Framebuffer}

theorem contains_of (h : 4 * fb.width.toNat ≤ fb.stride.toNat) : fb.Contains := by
  refine ⟨h, fun x hx y hy => ?_⟩
  rw [bytes_toNat]
  calc y * fb.stride.toNat + 4 * x + 4
      ≤ y * fb.stride.toNat + fb.stride.toNat := by omega
    _ = (y + 1) * fb.stride.toNat := (Nat.succ_mul _ _).symm
    _ ≤ fb.height.toNat * fb.stride.toNat := Nat.mul_le_mul_right _ hy

/-- The last pixel of a row that is too short lies beyond it. -/
theorem Contains.of_corner (hw : 0 < fb.width.toNat) (hh : 0 < fb.height.toNat)
    (h : (fb.height.toNat - 1) * fb.stride.toNat + 4 * (fb.width.toNat - 1) + 4 ≤ fb.bytes.toNat) :
    fb.Contains := by
  apply contains_of
  have hlast : fb.height.toNat * fb.stride.toNat =
      (fb.height.toNat - 1) * fb.stride.toNat + fb.stride.toNat := by
    rw [← Nat.succ_mul, Nat.succ_eq_add_one, Nat.sub_add_cancel hh]
  rw [bytes_toNat, hlast] at h
  omega

/-- What both builds ask before they multiply. -/
theorem nonempty_iff : (fb.phys ≠ 0 && fb.width > 0 && fb.height > 0) = true ↔
    fb.phys ≠ 0 ∧ 0 < fb.width.toNat ∧ 0 < fb.height.toNat := by
  have hzero : (0 : UInt32).toNat = 0 := rfl
  simp only [Bool.and_eq_true, decide_eq_true_eq, gt_iff_lt, UInt32.lt_iff_toNat_lt, hzero, and_assoc]

theorem toNat_mul_four (fb : Framebuffer) :
    (fb.width * 4).toNat = 4 * fb.width.toNat % 2 ^ 32 := by
  rw [UInt32.toNat_mul, Nat.mul_comm]
  rfl

theorem isSane_iff : fb.isSane = true ↔ fb.phys ≠ 0 ∧ 0 < fb.width.toNat ∧ 0 < fb.height.toNat ∧
    4 * fb.width.toNat % 2 ^ 32 ≤ fb.stride.toNat := by
  rw [isSane, Bool.and_eq_true, nonempty_iff, decide_eq_true_eq, ge_iff_le, UInt32.le_iff_toNat_le,
    toNat_mul_four, and_assoc, and_assoc]

theorem isSaneChecked_true : fb.isSaneChecked = .ok true ↔ fb.phys ≠ 0 ∧ 0 < fb.width.toNat ∧
    0 < fb.height.toNat ∧ 4 * fb.width.toNat ≤ fb.stride.toNat := by
  have hstride := fb.stride.toNat_lt
  unfold isSaneChecked
  split
  · next hne =>
    have hne := nonempty_iff.mp hne
    split
    · next hfits =>
      rw [Except.ok.injEq, decide_eq_true_eq, ge_iff_le, UInt32.le_iff_toNat_le, toNat_mul_four,
        Nat.mod_eq_of_lt (by omega)]
      exact ⟨fun h => ⟨hne.1, hne.2.1, hne.2.2, h⟩, fun h => h.2.2.2⟩
    · next hover => exact iff_of_false nofun fun h => by omega
  · next hne => exact iff_of_false nofun fun h => hne (nonempty_iff.mpr ⟨h.1, h.2.1, h.2.2.1⟩)

theorem isSaneChecked_overflow : fb.isSaneChecked = .error .overflow ↔
    fb.phys ≠ 0 ∧ 0 < fb.height.toNat ∧ 2 ^ 30 ≤ fb.width.toNat := by
  unfold isSaneChecked
  split
  · next hne =>
    have hne := nonempty_iff.mp hne
    split
    · next hfits => exact iff_of_false nofun fun h => by omega
    · next hover => exact iff_of_true rfl ⟨hne.1, hne.2.2, by omega⟩
  · next hne => exact iff_of_false nofun fun h => hne (nonempty_iff.mpr ⟨h.1, by omega, h.2.1⟩)

theorem not_contains_of_wide (h : 2 ^ 30 ≤ fb.width.toNat) : ¬fb.Contains := fun hin => by
  have hlong := hin.stride
  have hstride := fb.stride.toNat_lt
  omega

theorem contains_of_narrow (hsane : fb.isSane = true) (hlt : fb.width.toNat < 2 ^ 30) :
    fb.isSaneChecked = .ok true ∧ fb.Contains := by
  obtain ⟨hphys, hw, hh, hle⟩ := isSane_iff.mp hsane
  rw [Nat.mod_eq_of_lt (by omega)] at hle
  exact ⟨isSaneChecked_true.mpr ⟨hphys, hw, hh, hle⟩, contains_of hle⟩

/-- The test does not overflow, and what it accepts contains its pixels. -/
theorem no_overflow_iff (fb : Framebuffer) :
    (fb.isSaneChecked ≠ .error .overflow ∧ (fb.isSane = true → fb.Contains)) ↔
      fb.phys = 0 ∨ fb.height.toNat = 0 ∨ fb.width.toNat < 2 ^ 30 := by
  constructor
  · rintro ⟨hno, -⟩
    by_contra hcond
    rw [not_or, not_or] at hcond
    exact hno (isSaneChecked_overflow.mpr ⟨hcond.1, by omega, by omega⟩)
  · intro hcond
    refine ⟨fun hover => ?_, fun hsane => ?_⟩
    · obtain ⟨hphys, hh, hw⟩ := isSaneChecked_overflow.mp hover
      rcases hcond with h | h | h
      · exact hphys h
      · omega
      · omega
    · obtain ⟨hphys, -, hh, -⟩ := isSane_iff.mp hsane
      rcases hcond with h | h | h
      · exact absurd h hphys
      · omega
      · exact (contains_of_narrow hsane h).2

/-- What is accepted where the product wraps is accepted where it may not, and contains its
pixels. -/
theorem accepted_iff (fb : Framebuffer) :
    (fb.isSane = true → fb.isSaneChecked = .ok true ∧ fb.Contains) ↔
      fb.phys = 0 ∨ fb.height.toNat = 0 ∨ fb.width.toNat < 2 ^ 30 ∨
        fb.stride.toNat < 4 * fb.width.toNat % 2 ^ 32 := by
  constructor
  · intro hprop
    by_contra hcond
    rw [not_or, not_or, not_or] at hcond
    obtain ⟨hphys, hh, hw, hle⟩ := hcond
    have hsane := isSane_iff.mpr ⟨hphys, by omega, by omega, by omega⟩
    exact not_contains_of_wide (by omega) (hprop hsane).2
  · intro hcond hsane
    obtain ⟨hphys, -, hh, hle⟩ := isSane_iff.mp hsane
    rcases hcond with h | h | h | h
    · exact absurd h hphys
    · omega
    · exact contains_of_narrow hsane h
    · omega

/-- A descriptor narrower than `2 ^ 30` pixels is tested without an overflow, and contains its
pixels when it is accepted. For the others the test overflows; where it wraps, they are accepted
whenever the stride reaches what is left of the product, and never contain their pixels. -/
theorem sane_contains_iff (fb : Framebuffer) :
    ((fb.isSaneChecked ≠ .error .overflow ∧ (fb.isSane = true → fb.Contains)) ↔
      fb.phys = 0 ∨ fb.height.toNat = 0 ∨ fb.width.toNat < 2 ^ 30) ∧
    ((fb.isSane = true → fb.isSaneChecked = .ok true ∧ fb.Contains) ↔
      fb.phys = 0 ∨ fb.height.toNat = 0 ∨ fb.width.toNat < 2 ^ 30 ∨
        fb.stride.toNat < 4 * fb.width.toNat % 2 ^ 32) ∧
    (fb.isSaneChecked = .ok true → fb.Contains) :=
  ⟨no_overflow_iff fb, accepted_iff fb, fun h => contains_of (isSaneChecked_true.mp h).2.2.2⟩

/-- A screen of `2 ^ 30` pixels a row, in rows of one page. -/
def tooWide : Framebuffer := ⟨0xE0000000, 0x40000000, 1, 4096⟩

theorem tooWide_accepted : tooWide.isSane = true ∧ tooWide.isSaneChecked = .error .overflow ∧
    ¬tooWide.Contains ∧ tooWide.bytes = 4096 ∧ 1024 < tooWide.width.toNat ∧
      ¬0 * tooWide.stride.toNat + 4 * 1024 + 4 ≤ tooWide.bytes.toNat := by
  refine ⟨by decide, by decide, fun h => ?_, by decide, by decide, by decide⟩
  exact absurd h.stride (by decide)

end StarOs.Bootinfo.Framebuffer

namespace StarOs.Kernel

open Acpi Bootinfo

/-! ### The self-test -/

/-- `buf.get_mut(off..off + 4)` with a word copied into it; none where the buffer ends. -/
def storeWord (buf : List UInt8) (off : ℕ) (word : UInt32) : Option (List UInt8) :=
  if off + 4 ≤ buf.length then some (buf.take off ++ leBytes32 word ++ buf.drop (off + 4))
  else none

/-- The word in `buf[off..off + 4]`. -/
def loadWord (buf : List UInt8) (off : ℕ) : Option UInt32 :=
  match (buf.drop off).take 4 with
  | [b₀, b₁, b₂, b₃] => some (le32 b₀ b₁ b₂ b₃)
  | _ => none

/-- `PATTERN` for the corner at `i`. -/
def patternAt (i : ℕ) : UInt32 := ⟨(0x12345678 : UInt32).toBitVec.rotateLeft (i * 8)⟩

/-- The corners, each with its place in the list. -/
def corners (fb : Framebuffer) : List ((ℕ × ℕ) × ℕ) :=
  [((0, 0), 0), ((fb.width.toNat - 1, 0), 1), ((0, fb.height.toNat - 1), 2),
    ((fb.width.toNat - 1, fb.height.toNat - 1), 3)]

/-- Where a corner is, as a `usize`, and what is drawn on it. -/
def cornerWord (fb : Framebuffer) (c : (ℕ × ℕ) × ℕ) : ℕ × UInt32 :=
  ((c.1.2 * fb.stride.toNat + c.1.1 * 4) % 2 ^ 64, patternAt c.2)

def drawWords : List (ℕ × UInt32) → List UInt8 → Except String (List UInt8)
  | [], buf => .ok buf
  | (off, word) :: rest, buf =>
    match storeWord buf off word with
    | none => .error "framebuffer mapping is shorter than its own geometry"
    | some buf => drawWords rest buf

def readWords : List (ℕ × UInt32) → List UInt8 → Except String Unit
  | [], _ => .ok ()
  | (off, word) :: rest, buf =>
    if loadWord buf off ≠ some word then
      .error "framebuffer readback mismatch - wrong stride, or not really mapped"
    else readWords rest buf

/-- `selftest`: all corners are drawn before any is read. -/
def selftest (fb : Framebuffer) (buf : List UInt8) : Except String Unit := do
  let buf ← drawWords ((corners fb).map (cornerWord fb)) buf
  readWords ((corners fb).map (cornerWord fb)) buf

/-- `build_screen`, as far as the console drawn by another crate. -/
def buildScreen (info : Framebuffer) (buf : List UInt8) : Except String Unit :=
  if !info.isSane then .error "firmware reported geometry that is not self-consistent"
  else selftest info buf

section

variable {buf buf' : List UInt8} {off off' : ℕ} {word : UInt32} {words : List (ℕ × UInt32)}

theorem storeWord_some (h : storeWord buf off word = some buf') :
    off + 4 ≤ buf.length ∧ buf' = buf.take off ++ leBytes32 word ++ buf.drop (off + 4) := by
  unfold storeWord at h
  split at h
  · next hfits => exact ⟨hfits, (Option.some.inj h).symm⟩
  · cases h

theorem length_storeWord (h : storeWord buf off word = some buf') : buf'.length = buf.length := by
  obtain ⟨hfits, rfl⟩ := storeWord_some h
  simp only [List.length_append, List.length_take, List.length_drop, leBytes32, List.length_cons,
    List.length_nil]
  omega

theorem loadWord_same (h : storeWord buf off word = some buf') : loadWord buf' off = some word := by
  obtain ⟨hfits, rfl⟩ := storeWord_some h
  have htake : (buf.take off).length = off := by
    rw [List.length_take]
    omega
  rw [loadWord, List.append_assoc, List.drop_left' htake]
  exact congrArg some (le32_leBytes32 word)

/-- A store changes no word four bytes or more away. -/
theorem loadWord_apart (h : storeWord buf off word = some buf')
    (hapart : off + 4 ≤ off' ∨ off' + 4 ≤ off) : loadWord buf' off' = loadWord buf off' := by
  have hlen := length_storeWord h
  obtain ⟨hfits, hbuf⟩ := storeWord_some h
  have hbytes : (buf'.drop off').take 4 = (buf.drop off').take 4 := by
    apply List.ext_getElem?
    intro i
    by_cases hi : i < 4
    · rw [List.getElem?_take_of_lt hi, List.getElem?_take_of_lt hi, List.getElem?_drop,
        List.getElem?_drop, hbuf]
      have htake : (buf.take off ++ leBytes32 word).length = off + 4 := by
        simp [leBytes32]
        omega
      rcases hapart with hlo | hhi
      · rw [List.getElem?_append_right (by omega), htake, List.getElem?_drop]
        exact congrArg (buf[·]?) (by omega)
      · rw [List.append_assoc, List.getElem?_append_left (by rw [List.length_take]; omega),
          List.getElem?_take_of_lt (by omega)]
    · rw [List.getElem?_eq_none (by simp; omega), List.getElem?_eq_none (by simp; omega)]
  rw [loadWord, loadWord, hbytes]

/-- A list of words is drawn when its first word is, and then the others are. -/
theorem drawWords_cons_ok : drawWords ((off, word) :: words) buf = .ok buf' ↔
    ∃ buf₁, storeWord buf off word = some buf₁ ∧ drawWords words buf₁ = .ok buf' := by
  cases hstore : storeWord buf off word with
  | none => simp [drawWords, hstore]
  | some buf₁ => simp [drawWords, hstore]

/-- Words are drawn just when the buffer has room for all of them. -/
theorem drawWords_cases (words : List (ℕ × UInt32)) (buf : List UInt8) :
    (∃ buf', drawWords words buf = .ok buf' ∧ ∀ w ∈ words, w.1 + 4 ≤ buf.length) ∨
      drawWords words buf = .error "framebuffer mapping is shorter than its own geometry" ∧
        ∃ w ∈ words, ¬w.1 + 4 ≤ buf.length := by
  induction words generalizing buf with
  | nil => exact .inl ⟨buf, rfl, nofun⟩
  | cons w rest ih =>
    obtain ⟨off, word⟩ := w
    cases hstore : storeWord buf off word with
    | none =>
      right
      refine ⟨by simp only [drawWords, hstore], (off, word), List.mem_cons_self, fun hfits => ?_⟩
      rw [storeWord, if_pos hfits] at hstore
      cases hstore
    | some buf₁ =>
      have hlen := length_storeWord hstore
      have hfits := (storeWord_some hstore).1
      simp only [drawWords, hstore]
      rcases ih buf₁ with ⟨buf', hdraw, hroom⟩ | ⟨hdraw, w, hw, hover⟩
      · left
        refine ⟨buf', hdraw, fun w hw => ?_⟩
        rcases List.mem_cons.mp hw with rfl | hw
        · exact hfits
        · exact hlen ▸ hroom w hw
      · exact .inr ⟨hdraw, w, List.mem_cons_of_mem _ hw, hlen ▸ hover⟩

/-- Drawing leaves alone what none of the words touches. -/
theorem drawWords_apart (h : drawWords words buf = .ok buf')
    (hapart : ∀ w ∈ words, w.1 + 4 ≤ off ∨ off + 4 ≤ w.1) : loadWord buf' off = loadWord buf off := by
  induction words generalizing buf with
  | nil =>
    obtain rfl : buf = buf' := Except.ok.inj h
    rfl
  | cons w rest ih =>
    obtain ⟨o, word⟩ := w
    obtain ⟨buf₁, hstore, hrest⟩ := drawWords_cons_ok.mp h
    rw [ih hrest fun w hw => hapart w (List.mem_cons_of_mem _ hw)]
    exact loadWord_apart hstore (hapart (o, word) List.mem_cons_self)

/-- The word drawn last at an offset is read there. -/
theorem drawWords_last (pre : List (ℕ × UInt32)) {post : List (ℕ × UInt32)}
    (h : drawWords (pre ++ (off, word) :: post) buf = .ok buf')
    (hapart : ∀ w ∈ post, w.1 + 4 ≤ off ∨ off + 4 ≤ w.1) : loadWord buf' off = some word := by
  induction pre generalizing buf with
  | nil =>
    obtain ⟨buf₁, hstore, hrest⟩ := drawWords_cons_ok.mp h
    rw [drawWords_apart hrest hapart]
    exact loadWord_same hstore
  | cons w rest ih =>
    obtain ⟨o, word'⟩ := w
    obtain ⟨buf₁, -, hrest⟩ := drawWords_cons_ok.mp h
    exact ih hrest

theorem readWords_ok (h : ∀ w ∈ words, loadWord buf w.1 = some w.2) : readWords words buf = .ok () := by
  induction words with
  | nil => rfl
  | cons w rest ih =>
    obtain ⟨off, word⟩ := w
    have hword : loadWord buf off = some word := h (off, word) List.mem_cons_self
    rw [readWords, if_neg (not_not.mpr hword)]
    exact ih fun w hw => h w (List.mem_cons_of_mem _ hw)

/-- Words apart from each other are all read as they were drawn. -/
theorem drawWords_all (h : drawWords words buf = .ok buf')
    (hapart : words.Pairwise fun w w' => w'.1 + 4 ≤ w.1 ∨ w.1 + 4 ≤ w'.1) :
    ∀ w ∈ words, loadWord buf' w.1 = some w.2 := by
  intro w hw
  obtain ⟨pre, post, rfl⟩ := List.append_of_mem hw
  refine drawWords_last pre h fun w' hw' => ?_
  exact List.rel_of_pairwise_cons (List.pairwise_append.mp hapart).2.1 hw'

end

section

variable {fb : Framebuffer} {buf buf' : List UInt8}

/-- The words of the corners, in a buffer as long as a slice can be. -/
theorem cornerWords (hsmall : fb.bytes.toNat < 2 ^ 63) : (corners fb).map (cornerWord fb) =
    [(0, patternAt 0), ((fb.width.toNat - 1) * 4, patternAt 1),
      ((fb.height.toNat - 1) * fb.stride.toNat, patternAt 2),
      ((fb.height.toNat - 1) * fb.stride.toNat + (fb.width.toNat - 1) * 4, patternAt 3)] := by
  have hwidth := fb.width.toNat_lt
  have hrows : (fb.height.toNat - 1) * fb.stride.toNat ≤ fb.bytes.toNat := by
    rw [Framebuffer.bytes_toNat]
    exact Nat.mul_le_mul_right _ (Nat.sub_le _ _)
  have hright : (fb.width.toNat - 1) * 4 % 2 ^ 64 = (fb.width.toNat - 1) * 4 :=
    Nat.mod_eq_of_lt (by omega)
  have hlow := Nat.mod_eq_of_lt (show (fb.height.toNat - 1) * fb.stride.toNat < 2 ^ 64 by omega)
  have hlast : ((fb.height.toNat - 1) * fb.stride.toNat + (fb.width.toNat - 1) * 4) % 2 ^ 64 =
      (fb.height.toNat - 1) * fb.stride.toNat + (fb.width.toNat - 1) * 4 :=
    Nat.mod_eq_of_lt (by omega)
  simp only [corners, cornerWord, List.map_cons, List.map_nil, Nat.zero_mul, Nat.zero_add,
    Nat.add_zero, Nat.zero_mod, hright, hlow, hlast]

/-- They have room just when the rows are as long as their pixels. -/
theorem cornerWords_room (hsmall : fb.bytes.toNat < 2 ^ 63) (hw : 0 < fb.width.toNat)
    (hh : 0 < fb.height.toNat) :
    (∀ w ∈ (corners fb).map (cornerWord fb), w.1 + 4 ≤ fb.bytes.toNat) ↔
      4 * fb.width.toNat ≤ fb.stride.toNat := by
  rw [cornerWords hsmall]
  constructor
  · intro h
    have hlast := h _ (List.mem_cons_of_mem _ (List.mem_cons_of_mem _
      (List.mem_cons_of_mem _ List.mem_cons_self)))
    exact (Framebuffer.Contains.of_corner hw hh (by omega)).stride
  · intro h w hmem
    have hin := (Framebuffer.contains_of h).pixel
    have h₀ := hin 0 hw 0 hh
    have h₁ := hin (fb.width.toNat - 1) (by omega) 0 hh
    have h₂ := hin 0 hw (fb.height.toNat - 1) (by omega)
    have h₃ := hin (fb.width.toNat - 1) (by omega) (fb.height.toNat - 1) (by omega)
    simp only [List.mem_cons, List.not_mem_nil, or_false] at hmem
    rcases hmem with rfl | rfl | rfl | rfl <;> dsimp only <;> omega

/-- What the first corner reads as: its own word, unless another corner is in the same place. -/
theorem first_corner (hsmall : fb.bytes.toNat < 2 ^ 63) (hw : 0 < fb.width.toNat)
    (hh : 0 < fb.height.toNat) (hstride : 4 * fb.width.toNat ≤ fb.stride.toNat)
    (hone : fb.width.toNat = 1 ∨ fb.height.toNat = 1)
    (h : drawWords ((corners fb).map (cornerWord fb)) buf = .ok buf') :
    ∃ i, 0 < i ∧ i < 4 ∧ loadWord buf' 0 = some (patternAt i) := by
  rw [cornerWords hsmall] at h
  by_cases hh1 : fb.height.toNat = 1
  · rw [hh1, Nat.sub_self, Nat.zero_mul, Nat.zero_add] at h
    by_cases hw1 : fb.width.toNat = 1
    · rw [hw1, Nat.sub_self, Nat.zero_mul] at h
      exact ⟨3, by decide, by decide, drawWords_last [_, _, _] h nofun⟩
    · refine ⟨2, by decide, by decide, drawWords_last [_, _] h ?_⟩
      simp only [List.mem_cons, List.not_mem_nil, or_false, forall_eq]
      omega
  · have hw1 := hone.resolve_right hh1
    have hrow : fb.stride.toNat ≤ (fb.height.toNat - 1) * fb.stride.toNat :=
      Nat.le_mul_of_pos_left _ (by omega)
    rw [hw1, Nat.sub_self, Nat.zero_mul, Nat.add_zero] at h
    refine ⟨1, by decide, by decide, drawWords_last [_] h ?_⟩
    simp only [List.mem_cons, List.not_mem_nil, or_false, forall_eq_or_imp, forall_eq]
    omega

/-- What the self-test finds on a buffer of `bytes()`: too few of them, corners that are one
another's, or nothing. -/
theorem selftest_outcome (hsmall : fb.bytes.toNat < 2 ^ 63) (hw : 0 < fb.width.toNat)
    (hh : 0 < fb.height.toNat) (hbuf : buf.length = fb.bytes.toNat) :
    selftest fb buf =
      if fb.stride.toNat < 4 * fb.width.toNat then
        .error "framebuffer mapping is shorter than its own geometry"
      else if fb.width.toNat = 1 ∨ fb.height.toNat = 1 then
        .error "framebuffer readback mismatch - wrong stride, or not really mapped"
      else .ok () := by
  have hroom := cornerWords_room hsmall hw hh
  rcases drawWords_cases ((corners fb).map (cornerWord fb)) buf with
    ⟨buf', hdraw, hfits⟩ | ⟨hdraw, w, hmem, hover⟩
  · have hstride := hroom.mp (hbuf ▸ hfits)
    rw [if_neg (Nat.not_lt.mpr hstride)]
    simp only [selftest, hdraw, bind, Except.bind]
    split
    · next hone =>
      obtain ⟨i, hpos, hlt, hread⟩ := first_corner hsmall hw hh hstride hone hdraw
      have hother : loadWord buf' 0 ≠ some (patternAt 0) := by
        rw [hread]
        obtain rfl | rfl | rfl : i = 1 ∨ i = 2 ∨ i = 3 := by omega
        all_goals decide
      rw [cornerWords hsmall, readWords, if_pos hother]
    · next hmany =>
      refine readWords_ok (drawWords_all hdraw ?_)
      rw [cornerWords hsmall]
      have hrow : fb.stride.toNat ≤ (fb.height.toNat - 1) * fb.stride.toNat :=
        Nat.le_mul_of_pos_left _ (by omega)
      simp only [List.pairwise_cons, List.mem_cons, List.not_mem_nil, or_false, forall_eq_or_imp,
        forall_eq, List.Pairwise.nil, IsEmpty.forall_iff, implies_true, and_true]
      omega
  · have hshort : fb.stride.toNat < 4 * fb.width.toNat := by
      by_contra hlong
      exact hover (hbuf ▸ hroom.mpr (Nat.not_lt.mp hlong) w hmem)
    rw [if_pos hshort]
    simp only [selftest, hdraw, bind, Except.bind]

/-- A screen is drawn on only if its rows hold their pixels, however the product in `is_sane` came
out; and only if it has a second row and a second column. -/
theorem buildScreen_ok (hsmall : fb.bytes.toNat < 2 ^ 63) (hbuf : buf.length = fb.bytes.toNat) :
    buildScreen fb buf = .ok () ↔
      fb.phys ≠ 0 ∧ 1 < fb.width.toNat ∧ 1 < fb.height.toNat ∧ fb.Contains := by
  have hstride := fb.stride.toNat_lt
  unfold buildScreen
  split
  · next hrefused =>
    refine iff_of_false nofun fun ⟨hphys, hw, hh, hin⟩ => ?_
    have hlong := hin.stride
    have hsane : fb.isSane = true := Framebuffer.isSane_iff.mpr
      ⟨hphys, by omega, by omega, by rwa [Nat.mod_eq_of_lt (by omega)]⟩
    rw [hsane] at hrefused
    cases hrefused
  · next haccepted =>
    obtain ⟨hphys, hw, hh, -⟩ := Framebuffer.isSane_iff.mp (by simpa using haccepted)
    rw [selftest_outcome hsmall hw hh hbuf]
    split
    · next hshort =>
      refine iff_of_false nofun fun ⟨_, _, _, hin⟩ => ?_
      have hlong := hin.stride
      omega
    · next hlong =>
      split
      · next hone => exact iff_of_false nofun fun ⟨_, hw1, hh1, _⟩ => by omega
      · next hmany =>
        exact iff_of_true rfl
          ⟨hphys, by omega, by omega, Framebuffer.contains_of (Nat.not_lt.mp hlong)⟩

end

end StarOs.Kernel
