import StarOs.Acpi.Covered

/-! The MADT as a list of entries. A body made of encoded entries is decoded entry for entry, and
any other one as far as its entries go. -/

namespace StarOs.Acpi

open Library

/-- `u16::to_le_bytes`. -/
def leBytes16 (x : UInt16) : List UInt8 := [x.toUInt8, (x >>> 8).toUInt8]

/-- `u32::to_le_bytes`. -/
def leBytes32 (x : UInt32) : List UInt8 :=
  [x.toUInt8, (x >>> 8).toUInt8, (x >>> 16).toUInt8, (x >>> 24).toUInt8]

/-- The shortest entry of a known type. -/
def minLength (entryType : UInt8) : Option ℕ :=
  if entryType = 0 then some 8
  else if entryType = 1 then some 12
  else if entryType = 2 then some 10
  else if entryType = 4 then some 6
  else if entryType = 9 then some 16
  else none

/-- A well-formed entry: its type, and what follows its length byte. -/
structure Encoded where
  entryType : UInt8
  payload : List UInt8
  short : payload.length + 2 ≤ 255

namespace Encoded

def length (r : Encoded) : ℕ := r.payload.length + 2

def bytes (r : Encoded) : List UInt8 := r.entryType :: UInt8.ofNat r.length :: r.payload

end Encoded

/-- What an entry encodes, field by field. Reserved bytes and bytes past the last field are
free, as are the flags but for the lowest. -/
inductive Encodes : UInt8 → List UInt8 → MadtEntry → Prop where
  | localApic (acpiId apicId flags rest) :
    Encodes 0 (acpiId :: apicId :: (leBytes32 flags ++ rest)) (.localApic acpiId apicId (flags &&& 1 != 0))
  | ioApic (id reserved address gsiBase rest) :
    Encodes 1 (id :: reserved :: (leBytes32 address ++ (leBytes32 gsiBase ++ rest)))
      (.ioApic id address gsiBase)
  | interruptOverride (bus sourceIrq gsi flags rest) :
    Encodes 2 (bus :: sourceIrq :: (leBytes32 gsi ++ (leBytes16 flags ++ rest)))
      (.interruptOverride bus sourceIrq gsi flags)
  | localApicNmi (acpiId flags lint rest) :
    Encodes 4 (acpiId :: (leBytes16 flags ++ lint :: rest)) (.localApicNmi acpiId flags lint)
  | localX2Apic (reserved reserved' apicId flags acpiId rest) :
    Encodes 9 (reserved :: reserved' :: (leBytes32 apicId ++ (leBytes32 flags ++ (leBytes32 acpiId ++ rest))))
      (.localX2Apic apicId acpiId (flags &&& 1 != 0))
  | other (entryType payload) (h : ∀ n, minLength entryType = some n → payload.length + 2 < n) :
    Encodes entryType payload (.other entryType)

/-! ### Words -/

theorem or_high {low n : ℕ} (h : low < 2 ^ n) (high : ℕ) :
    low ||| 2 ^ n * high = low + 2 ^ n * high := by
  rw [Nat.or_comm, ← Nat.two_pow_add_eq_or_of_lt h, Nat.add_comm]

theorem toNat_le16 (b₀ b₁ : UInt8) : (le16 b₀ b₁).toNat = b₀.toNat + 2 ^ 8 * b₁.toNat := by
  have h₁ := b₁.toNat_lt
  have hshift : (b₁.toUInt16 <<< 8).toNat = 2 ^ 8 * b₁.toNat := by
    rw [UInt16.toNat_shiftLeft, UInt8.toNat_toUInt16, Nat.shiftLeft_eq, Nat.mul_comm]
    exact Nat.mod_eq_of_lt (Nat.mul_lt_mul_of_pos_left h₁ (Nat.two_pow_pos 8))
  rw [le16, UInt16.toNat_or, hshift, UInt8.toNat_toUInt16, or_high b₀.toNat_lt]

theorem toNat_le32 (b₀ b₁ b₂ b₃ : UInt8) : (le32 b₀ b₁ b₂ b₃).toNat =
    b₀.toNat + 2 ^ 8 * b₁.toNat + 2 ^ 16 * b₂.toNat + 2 ^ 24 * b₃.toNat := by
  have h₀ := b₀.toNat_lt
  have h₁ := b₁.toNat_lt
  have h₂ := b₂.toNat_lt
  have hshift : ∀ (b : UInt8) (k : UInt32), k.toNat ≤ 24 →
      (b.toUInt32 <<< k).toNat = 2 ^ k.toNat * b.toNat := by
    intro b k hk
    have hb := b.toNat_lt
    rw [UInt32.toNat_shiftLeft, Nat.mod_eq_of_lt (show k.toNat < 32 by omega), UInt8.toNat_toUInt32,
      Nat.shiftLeft_eq, Nat.mul_comm]
    refine Nat.mod_eq_of_lt ?_
    calc 2 ^ k.toNat * b.toNat ≤ 2 ^ 24 * b.toNat :=
          Nat.mul_le_mul_right _ (Nat.pow_le_pow_right (by decide) hk)
      _ < 2 ^ 32 := by omega
  have h8 : (b₁.toUInt32 <<< 8).toNat = 2 ^ 8 * b₁.toNat := hshift b₁ 8 (by decide)
  have h16 : (b₂.toUInt32 <<< 16).toNat = 2 ^ 16 * b₂.toNat := hshift b₂ 16 (by decide)
  have h24 : (b₃.toUInt32 <<< 24).toNat = 2 ^ 24 * b₃.toNat := hshift b₃ 24 (by decide)
  rw [le32, UInt32.toNat_or, UInt32.toNat_or, UInt32.toNat_or, h8, h16, h24, UInt8.toNat_toUInt32,
    or_high h₀, or_high (n := 16) (by omega), or_high (n := 24) (by omega)]

/-- The bytes of a word are those it was made of. -/
theorem leBytes16_le16 (b₀ b₁ : UInt8) : leBytes16 (le16 b₀ b₁) = [b₀, b₁] := by
  have h₀ := b₀.toNat_lt
  have h₁ := b₁.toNat_lt
  simp only [leBytes16, List.cons.injEq, ← UInt8.toNat_inj, UInt16.toNat_toUInt8,
    UInt16.toNat_shiftRight, toNat_le16, Nat.shiftRight_eq_div_pow, UInt16.reduceToNat,
    Nat.reduceMod, Nat.reducePow, and_true]
  omega

theorem leBytes32_le32 (b₀ b₁ b₂ b₃ : UInt8) : leBytes32 (le32 b₀ b₁ b₂ b₃) = [b₀, b₁, b₂, b₃] := by
  have h₀ := b₀.toNat_lt
  have h₁ := b₁.toNat_lt
  have h₂ := b₂.toNat_lt
  have h₃ := b₃.toNat_lt
  simp only [leBytes32, List.cons.injEq, ← UInt8.toNat_inj, UInt32.toNat_toUInt8,
    UInt32.toNat_shiftRight, toNat_le32, Nat.shiftRight_eq_div_pow, UInt32.reduceToNat,
    Nat.reduceMod, Nat.reducePow, and_true]
  omega

theorem le16_leBytes16 (x : UInt16) : le16 x.toUInt8 (x >>> 8).toUInt8 = x := by
  have h := x.toNat_lt
  simp only [← UInt16.toNat_inj, toNat_le16, UInt16.toNat_toUInt8, UInt16.toNat_shiftRight,
    Nat.shiftRight_eq_div_pow, UInt16.reduceToNat, Nat.reduceMod, Nat.reducePow] at h ⊢
  omega

theorem le32_leBytes32 (x : UInt32) :
    le32 x.toUInt8 (x >>> 8).toUInt8 (x >>> 16).toUInt8 (x >>> 24).toUInt8 = x := by
  have h := x.toNat_lt
  simp only [← UInt32.toNat_inj, toNat_le32, UInt32.toNat_toUInt8, UInt32.toNat_shiftRight,
    Nat.shiftRight_eq_div_pow, UInt32.reduceToNat, Nat.reduceMod, Nat.reducePow] at h ⊢
  omega

theorem exists_byte {l : List UInt8} {n : ℕ} (h : n + 1 ≤ l.length) :
    ∃ x rest, l = x :: rest ∧ n ≤ rest.length := by
  match l, h with
  | x :: rest, h => exact ⟨x, rest, rfl, Nat.le_of_succ_le_succ h⟩

/-- Four bytes are a word's. -/
theorem exists_leBytes32 {l : List UInt8} {n : ℕ} (h : n + 4 ≤ l.length) :
    ∃ x rest, l = leBytes32 x ++ rest ∧ n ≤ rest.length := by
  obtain ⟨b₀, l, rfl, h₁⟩ := exists_byte (n := n + 3) h
  obtain ⟨b₁, l, rfl, h₂⟩ := exists_byte (n := n + 2) h₁
  obtain ⟨b₂, l, rfl, h₃⟩ := exists_byte (n := n + 1) h₂
  obtain ⟨b₃, l, rfl, h₄⟩ := exists_byte h₃
  exact ⟨le32 b₀ b₁ b₂ b₃, l, by rw [leBytes32_le32]; rfl, h₄⟩

theorem exists_leBytes16 {l : List UInt8} {n : ℕ} (h : n + 2 ≤ l.length) :
    ∃ x rest, l = leBytes16 x ++ rest ∧ n ≤ rest.length := by
  obtain ⟨b₀, l, rfl, h₁⟩ := exists_byte (n := n + 1) h
  obtain ⟨b₁, l, rfl, h₂⟩ := exists_byte h₁
  exact ⟨le16 b₀ b₁, l, by rw [leBytes16_le16]; rfl, h₂⟩

theorem length_leBytes32 (x : UInt32) (rest : List UInt8) :
    (leBytes32 x ++ rest).length = rest.length + 4 := rfl

theorem length_leBytes16 (x : UInt16) (rest : List UInt8) :
    (leBytes16 x ++ rest).length = rest.length + 2 := rfl

/-! ### One entry -/

section

variable {e : Slice} {t lenByte : UInt8} {payload rest : List UInt8} {entry entry' : MadtEntry}

theorem word32_of_drop {off : ℕ} {x : UInt32} (h : e.bytes.drop off = leBytes32 x ++ rest) :
    word32 e off = x := by
  have hbyte : ∀ i, e.byte (off + i) = (leBytes32 x ++ rest).getD i 0 := by
    intro i
    rw [Slice.byte, List.getD_eq_getElem?_getD, ← List.getElem?_drop, h, List.getD_eq_getElem?_getD]
  rw [word32, ← Nat.add_zero off, Nat.add_assoc, Nat.add_assoc, Nat.add_assoc, hbyte, hbyte, hbyte,
    hbyte]
  exact le32_leBytes32 x

/-- Whatever an entry encodes is what it is decoded to. -/
theorem decode_encodes (hbytes : e.bytes = t :: lenByte :: payload) (h : Encodes t payload entry) :
    MadtIter.decode t e.length e = .ok (some entry) := by
  have hlen : e.length = payload.length + 2 := congrArg List.length hbytes
  have hbyte : ∀ i, e.byte i = (t :: lenByte :: payload).getD i 0 := fun i => by
    rw [Slice.byte, hbytes]
  unfold MadtIter.decode
  cases h with
  | localApic acpiId apicId flags rest =>
    simp only [List.length_cons, length_leBytes32] at hlen
    rw [if_pos ⟨rfl, by omega⟩]
    simp only [Slice.index_eq (show 2 < e.length by omega), Slice.index_eq (show 3 < e.length by omega),
      u32At_eq (show 4 + 4 ≤ e.length by omega), checked_bind, hbyte,
      word32_of_drop (show e.bytes.drop 4 = leBytes32 flags ++ rest by rw [hbytes]; rfl)]
    rfl
  | ioApic id reserved address gsiBase rest =>
    simp only [List.length_cons, length_leBytes32] at hlen
    rw [if_neg (by simp), if_pos ⟨rfl, by omega⟩]
    simp only [Slice.index_eq (show 2 < e.length by omega), u32At_eq (show 4 + 4 ≤ e.length by omega),
      u32At_eq (show 8 + 4 ≤ e.length by omega), checked_bind, hbyte,
      word32_of_drop (show e.bytes.drop 4 = leBytes32 address ++ (leBytes32 gsiBase ++ rest) by
        rw [hbytes]; rfl),
      word32_of_drop (show e.bytes.drop 8 = leBytes32 gsiBase ++ rest by rw [hbytes]; rfl)]
    rfl
  | interruptOverride bus sourceIrq gsi flags rest =>
    simp only [List.length_cons, length_leBytes32, length_leBytes16] at hlen
    rw [if_neg (by simp), if_neg (by simp), if_pos ⟨rfl, by omega⟩]
    simp only [Slice.index_eq (show 2 < e.length by omega), Slice.index_eq (show 3 < e.length by omega),
      u32At_eq (show 4 + 4 ≤ e.length by omega), Slice.index_eq (show 8 < e.length by omega),
      Slice.index_eq (show 9 < e.length by omega), checked_bind, hbyte,
      word32_of_drop (show e.bytes.drop 4 = leBytes32 gsi ++ (leBytes16 flags ++ rest) by
        rw [hbytes]; rfl)]
    exact congrArg (fun f => Except.ok (some (MadtEntry.interruptOverride bus sourceIrq gsi f)))
      (le16_leBytes16 flags)
  | localApicNmi acpiId flags lint rest =>
    simp only [List.length_cons, length_leBytes16] at hlen
    rw [if_neg (by simp), if_neg (by simp), if_neg (by simp), if_pos ⟨rfl, by omega⟩]
    simp only [Slice.index_eq (show 2 < e.length by omega), Slice.index_eq (show 3 < e.length by omega),
      Slice.index_eq (show 4 < e.length by omega), Slice.index_eq (show 5 < e.length by omega),
      checked_bind, hbyte]
    exact congrArg (fun f => Except.ok (some (MadtEntry.localApicNmi acpiId f lint)))
      (le16_leBytes16 flags)
  | localX2Apic reserved reserved' apicId flags acpiId rest =>
    simp only [List.length_cons, length_leBytes32] at hlen
    rw [if_neg (by simp), if_neg (by simp), if_neg (by simp), if_neg (by simp), if_pos ⟨rfl, by omega⟩]
    simp only [u32At_eq (show 4 + 4 ≤ e.length by omega), u32At_eq (show 12 + 4 ≤ e.length by omega),
      u32At_eq (show 8 + 4 ≤ e.length by omega), checked_bind,
      word32_of_drop (show e.bytes.drop 4 =
        leBytes32 apicId ++ (leBytes32 flags ++ (leBytes32 acpiId ++ rest)) by rw [hbytes]; rfl),
      word32_of_drop (show e.bytes.drop 8 = leBytes32 flags ++ (leBytes32 acpiId ++ rest) by
        rw [hbytes]; rfl),
      word32_of_drop (show e.bytes.drop 12 = leBytes32 acpiId ++ rest by rw [hbytes]; rfl)]
  | other _ _ hshort =>
    have hmin : ∀ u n, minLength u = some n → ¬(t = u ∧ e.length ≥ n) := by
      rintro u n hu ⟨rfl, hge⟩
      have := hshort n hu
      omega
    rw [if_neg (hmin 0 8 rfl), if_neg (hmin 1 12 rfl), if_neg (hmin 2 10 rfl), if_neg (hmin 4 6 rfl),
      if_neg (hmin 9 16 rfl)]

/-- Every payload encodes something. -/
theorem exists_encodes (t : UInt8) (payload : List UInt8) : ∃ entry, Encodes t payload entry := by
  by_cases hlong : ∀ n, minLength t = some n → payload.length + 2 < n
  · exact ⟨_, .other t payload hlong⟩
  · push Not at hlong
    obtain ⟨n, hmin, hlen⟩ := hlong
    unfold minLength at hmin
    split at hmin
    · next h0 =>
      subst h0
      obtain rfl := Option.some.inj hmin
      obtain ⟨acpiId, l, rfl, h₁⟩ := exists_byte (n := 5) (show 6 ≤ payload.length by omega)
      obtain ⟨apicId, l, rfl, h₂⟩ := exists_byte (n := 4) h₁
      obtain ⟨flags, rest, rfl, -⟩ := exists_leBytes32 (n := 0) h₂
      exact ⟨_, .localApic acpiId apicId flags rest⟩
    split at hmin
    · next h1 =>
      subst h1
      obtain rfl := Option.some.inj hmin
      obtain ⟨id, l, rfl, h₁⟩ := exists_byte (n := 9) (show 10 ≤ payload.length by omega)
      obtain ⟨reserved, l, rfl, h₂⟩ := exists_byte (n := 8) h₁
      obtain ⟨address, l, rfl, h₃⟩ := exists_leBytes32 (n := 4) h₂
      obtain ⟨gsiBase, rest, rfl, -⟩ := exists_leBytes32 (n := 0) h₃
      exact ⟨_, .ioApic id reserved address gsiBase rest⟩
    split at hmin
    · next h2 =>
      subst h2
      obtain rfl := Option.some.inj hmin
      obtain ⟨bus, l, rfl, h₁⟩ := exists_byte (n := 7) (show 8 ≤ payload.length by omega)
      obtain ⟨sourceIrq, l, rfl, h₂⟩ := exists_byte (n := 6) h₁
      obtain ⟨gsi, l, rfl, h₃⟩ := exists_leBytes32 (n := 2) h₂
      obtain ⟨flags, rest, rfl, -⟩ := exists_leBytes16 (n := 0) h₃
      exact ⟨_, .interruptOverride bus sourceIrq gsi flags rest⟩
    split at hmin
    · next h4 =>
      subst h4
      obtain rfl := Option.some.inj hmin
      obtain ⟨acpiId, l, rfl, h₁⟩ := exists_byte (n := 3) (show 4 ≤ payload.length by omega)
      obtain ⟨flags, l, rfl, h₂⟩ := exists_leBytes16 (n := 1) h₁
      obtain ⟨lint, rest, rfl, -⟩ := exists_byte (n := 0) h₂
      exact ⟨_, .localApicNmi acpiId flags lint rest⟩
    split at hmin
    · next h9 =>
      subst h9
      obtain rfl := Option.some.inj hmin
      obtain ⟨reserved, l, rfl, h₁⟩ := exists_byte (n := 13) (show 14 ≤ payload.length by omega)
      obtain ⟨reserved', l, rfl, h₂⟩ := exists_byte (n := 12) h₁
      obtain ⟨apicId, l, rfl, h₃⟩ := exists_leBytes32 (n := 8) h₂
      obtain ⟨flags, l, rfl, h₄⟩ := exists_leBytes32 (n := 4) h₃
      obtain ⟨acpiId, rest, rfl, -⟩ := exists_leBytes32 (n := 0) h₄
      exact ⟨_, .localX2Apic reserved reserved' apicId flags acpiId rest⟩
    · cases hmin

/-- An entry encodes one thing only. -/
theorem Encodes.unique {r : Encoded} (h : Encodes r.entryType r.payload entry)
    (h' : Encodes r.entryType r.payload entry') : entry = entry' := by
  have hshort : r.bytes.length ≤ isizeMax := Nat.le_trans r.short (by decide)
  have hdecode := decode_encodes (e := ⟨r.bytes, hshort⟩) rfl h
  rw [decode_encodes (e := ⟨r.bytes, hshort⟩) rfl h'] at hdecode
  exact (Option.some.inj (Except.ok.inj hdecode)).symm

end

/-! ### The walk -/

namespace Encoded

variable {r r' : Encoded} {l rest : List UInt8} {rs rs' : List Encoded}

theorem toNat_length (r : Encoded) : (UInt8.ofNat r.length).toNat = r.length :=
  UInt8.toNat_ofNat_of_lt' (Nat.lt_of_le_of_lt r.short (by decide))

theorem length_bytes (r : Encoded) : r.bytes.length = r.length := rfl

/-- No entry is the beginning of another: its length says where it ends. -/
theorem eq_of_prefix (h : r.bytes <+: l) (h' : r'.bytes <+: l) : r = r' := by
  obtain ⟨rest, rfl⟩ := h
  obtain ⟨rest', heq⟩ := h'
  obtain ⟨htype, heq⟩ := List.cons.inj heq
  obtain ⟨hlen, heq⟩ := List.cons.inj heq
  have hlen := congrArg UInt8.toNat hlen
  rw [toNat_length, toNat_length] at hlen
  obtain ⟨hpayload, -⟩ := List.append_inj heq (by unfold length at hlen; omega)
  obtain ⟨t, payload, short⟩ := r
  obtain ⟨t', payload', short'⟩ := r'
  obtain rfl : t' = t := htype
  obtain rfl : payload' = payload := hpayload
  rfl

/-- So one list of entries is the beginning of any other found at the same place, or goes on
where it ends. -/
theorem list_prefix (hrest : ∀ r : Encoded, ¬r.bytes <+: rest)
    (h : rs'.flatMap bytes <+: rs.flatMap bytes ++ rest) : rs' <+: rs := by
  induction rs' generalizing rs with
  | nil => exact List.nil_prefix
  | cons r' rs' ih =>
    rw [List.flatMap_cons] at h
    cases rs with
    | nil => exact absurd ((List.prefix_append _ _).trans h) (hrest r')
    | cons r rs =>
      rw [List.flatMap_cons, List.append_assoc] at h
      obtain rfl : r' = r := eq_of_prefix ((List.prefix_append _ _).trans h) (List.prefix_append _ _)
      exact List.cons_prefix_cons.mpr ⟨rfl, ih ((List.prefix_append_right_inj _).mp h)⟩

/-- Any bytes begin with as many entries as they can. -/
theorem exists_longest (l : List UInt8) :
    ∃ (rs : List Encoded) (rest : List UInt8), l = rs.flatMap bytes ++ rest ∧
      ∀ r : Encoded, ¬r.bytes <+: rest := by
  induction hn : l.length using Nat.strongRecOn generalizing l with
  | ind n ih =>
    by_cases h : ∃ r : Encoded, r.bytes <+: l
    · obtain ⟨r, tail, rfl⟩ := h
      have hshorter : tail.length < n := by
        rw [← hn, List.length_append, length_bytes, length]
        omega
      obtain ⟨rs, rest, rfl, hrest⟩ := ih _ hshorter tail rfl
      exact ⟨r :: rs, rest, by rw [List.flatMap_cons, List.append_assoc], hrest⟩
    · exact ⟨[], l, rfl, not_exists.mp h⟩

theorem two_mul_le_length (rs : List Encoded) : 2 * rs.length ≤ (rs.flatMap bytes).length := by
  induction rs with
  | nil => exact Nat.le_refl 0
  | cons r rs ih =>
    rw [List.flatMap_cons, List.length_append, List.length_cons, length_bytes, length]
    omega

end Encoded

namespace MadtIter

variable {it : MadtIter} {r : Encoded} {entry : MadtEntry} {rest : List UInt8}

theorem getByte_off (it : MadtIter) (i : ℕ) :
    it.body.getByte (it.off + i) = (it.body.bytes.drop it.off)[i]? := by
  rw [Slice.getByte, List.getElem?_drop]

/-- A turn over an entry gives what it encodes, and moves on by its length. -/
theorem next_encoded (h : it.body.bytes.drop it.off = r.bytes ++ rest)
    (hmeans : Encodes r.entryType r.payload entry) :
    it.next = .ok (some (entry, { it with off := it.off + r.length })) := by
  have hbody := it.body.length_lt
  have hlen := congrArg List.length h
  rw [List.length_drop, List.length_append, r.length_bytes] at hlen
  have hfits : it.off + r.length ≤ it.body.length := by
    have : 2 ≤ r.length := Nat.le_add_left _ _
    unfold Slice.length
    omega
  have htype : it.body.getByte it.off = some r.entryType := by
    rw [← Nat.add_zero it.off, getByte_off, h]
    rfl
  have hsecond : it.body.getByte (it.off + 1) = some (UInt8.ofNat r.length) := by
    rw [getByte_off, h]
    rfl
  have hsub : (it.body.sub it.off (it.off + r.length)).bytes = r.bytes := by
    change (it.body.bytes.take (it.off + r.length)).drop it.off = r.bytes
    rw [List.drop_take, h, Nat.add_sub_cancel_left, ← r.length_bytes, List.take_left]
  have hdecode := decode_encodes hsub hmeans
  rw [show (it.body.sub it.off (it.off + r.length)).length = r.length from
    congrArg List.length hsub] at hdecode
  have hmin : ¬r.length < 2 := by
    unfold Encoded.length
    omega
  simp only [next, htype, add_eq (show it.off + 1 < 2 ^ 64 by omega), checked_bind, hsecond,
    r.toNat_length, if_neg hmin, add_eq (show it.off + r.length < 2 ^ 64 by omega), gt_iff_lt,
    if_neg (Nat.not_lt.mpr hfits), Slice.range_eq (Nat.le_add_right it.off r.length) hfits, hdecode]

/-- Where no entry begins, the walk ends. -/
theorem next_none (h : ∀ r : Encoded, ¬r.bytes <+: it.body.bytes.drop it.off) :
    it.next = .ok none := by
  have hbody := it.body.length_lt
  have hzero := it.getByte_off 0
  have hone := it.getByte_off 1
  rw [Nat.add_zero] at hzero
  have hlen : (it.body.bytes.drop it.off).length = it.body.length - it.off := List.length_drop
  generalize it.body.bytes.drop it.off = l at *
  unfold next
  match l with
  | [] =>
    rw [hzero]
    rfl
  | [t] =>
    simp only [List.length_cons, List.length_nil] at hlen
    simp only [hzero, add_eq (show it.off + 1 < 2 ^ 64 by omega), checked_bind, hone,
      List.getElem?_cons_zero, List.getElem?_cons_succ, List.getElem?_nil]
  | t :: b :: l =>
    have hb := b.toNat_lt
    simp only [List.length_cons] at hlen
    simp only [hzero, add_eq (show it.off + 1 < 2 ^ 64 by omega), checked_bind, hone,
      List.getElem?_cons_zero, List.getElem?_cons_succ, add_eq (show it.off + b.toNat < 2 ^ 64 by omega)]
    split
    · rfl
    · next hmin =>
      refine if_pos (Nat.lt_of_not_le fun hfits => ?_)
      have htake : (l.take (b.toNat - 2)).length + 2 = b.toNat := by
        rw [List.length_take]
        omega
      refine h ⟨t, l.take (b.toNat - 2), by omega⟩ ⟨l.drop (b.toNat - 2), ?_⟩
      simp only [Encoded.bytes, Encoded.length, htake, UInt8.ofNat_toNat, List.cons_append,
        List.take_append_drop]

/-- `for e in l`, with the body of a `for` over the iterator. -/
def forInList {σ : Type} : List MadtEntry → σ → (MadtEntry → σ → Checked (ForInStep σ)) → Checked σ
  | [], s, _ => .ok s
  | e :: l, s, body => do
    match ← body e s with
    | .done s => .ok s
    | .yield s => forInList l s body

/-- A loop over the iterator is the loop over what its entries encode. -/
theorem forIn_entries {σ : Type} {body : MadtEntry → σ → Checked (ForInStep σ)} {rs : List Encoded}
    {es : List MadtEntry} {turns : ℕ} {s : σ}
    (h : it.body.bytes.drop it.off = rs.flatMap Encoded.bytes ++ rest)
    (hrest : ∀ r : Encoded, ¬r.bytes <+: rest)
    (hmeans : List.Forall₂ (fun r entry => Encodes r.entryType r.payload entry) rs es)
    (hturns : rs.length < turns) : it.forIn turns s body = forInList es s body := by
  induction hmeans generalizing it turns s with
  | nil =>
    obtain ⟨turns, rfl⟩ := Nat.exists_eq_succ_of_ne_zero (Nat.ne_zero_of_lt hturns)
    rw [List.flatMap_nil, List.nil_append] at h
    simp only [forIn, next_none (h ▸ hrest), checked_bind, forInList]
  | @cons r entry rs es hmean _ ih =>
    obtain ⟨turns, rfl⟩ := Nat.exists_eq_succ_of_ne_zero (Nat.ne_zero_of_lt hturns)
    rw [List.flatMap_cons, List.append_assoc] at h
    have hnext : ({ it with off := it.off + r.length } : MadtIter).body.bytes.drop
        (it.off + r.length) = rs.flatMap Encoded.bytes ++ rest := by
      rw [← List.drop_drop, h, ← r.length_bytes, List.drop_left]
    have hgo : ∀ s, forIn turns { it with off := it.off + r.length } s body = forInList es s body :=
      fun s => ih hnext (Nat.lt_of_succ_lt_succ hturns)
    rw [forIn, next_encoded h hmean, checked_bind, forInList]
    dsimp only
    cases body entry s with
    | error err => rfl
    | ok step =>
      cases step with
      | done s => rfl
      | yield s => exact hgo s

end MadtIter

namespace Madt

variable {m : Madt} {rs : List Encoded} {es : List MadtEntry} {rest : List UInt8} {turns : ℕ}

theorem forInList_walk (es l : List MadtEntry) :
    MadtIter.forInList es l (fun e l => .ok (.yield (l ++ [e]))) = .ok (l ++ es) := by
  induction es generalizing l with
  | nil => rw [MadtIter.forInList, List.append_nil]
  | cons e es ih =>
    rw [MadtIter.forInList, checked_bind]
    refine (ih (l ++ [e])).trans ?_
    rw [List.append_assoc, List.singleton_append]

theorem walk_entries (h : m.body.bytes = rs.flatMap Encoded.bytes ++ rest)
    (hrest : ∀ r : Encoded, ¬r.bytes <+: rest)
    (hmeans : List.Forall₂ (fun r entry => Encodes r.entryType r.payload entry) rs es)
    (hturns : m.body.length < 2 * turns) : m.walk turns = .ok es := by
  have hlen := congrArg List.length h
  have htwo := Encoded.two_mul_le_length rs
  rw [List.length_append] at hlen
  unfold Slice.length at hturns
  have hdrop : m.entries.body.bytes.drop m.entries.off = rs.flatMap Encoded.bytes ++ rest := h
  have hloop : m.walk turns = MadtIter.forInList es [] fun e l => .ok (.yield (l ++ [e])) :=
    MadtIter.forIn_entries hdrop hrest hmeans (by omega)
  rw [hloop, forInList_walk, List.nil_append]

end Madt

/-- A body of encoded entries is decoded to what each encodes, in order; and any body to what
the entries encode that it begins with, which are as many as there can be. -/
theorem madt_walk_decodes :
    (∀ (m : Madt) rs es turns, m.body.bytes = rs.flatMap Encoded.bytes →
      List.Forall₂ (fun r entry => Encodes r.entryType r.payload entry) rs es →
      m.body.length < 2 * turns → m.walk turns = .ok es) ∧
    (∀ r : Encoded, ∃! entry, Encodes r.entryType r.payload entry) ∧
    ∀ (m : Madt) turns, m.body.length < 2 * turns → ∃ rs es rest,
      m.body.bytes = rs.flatMap Encoded.bytes ++ rest ∧
      (∀ rs', rs'.flatMap Encoded.bytes <+: m.body.bytes → rs' <+: rs) ∧
      List.Forall₂ (fun r entry => Encodes r.entryType r.payload entry) rs es ∧
      m.walk turns = .ok es := by
  refine ⟨?_, ?_, ?_⟩
  · intro m rs es turns hbody hmeans hturns
    have hnone : ∀ r : Encoded, ¬r.bytes <+: [] := fun r hr => by
      cases List.prefix_nil.mp hr
    exact Madt.walk_entries (by rw [hbody, List.append_nil]) hnone hmeans hturns
  · intro r
    obtain ⟨entry, hentry⟩ := exists_encodes r.entryType r.payload
    exact ⟨entry, hentry, fun entry' hentry' => hentry'.unique hentry⟩
  · intro m turns hturns
    obtain ⟨rs, rest, hbody, hrest⟩ := Encoded.exists_longest m.body.bytes
    have hes : ∃ es, List.Forall₂ (fun (r : Encoded) entry => Encodes r.entryType r.payload entry) rs es := by
      clear hbody
      induction rs with
      | nil => exact ⟨[], .nil⟩
      | cons r rs ih =>
        obtain ⟨es, hes⟩ := ih
        obtain ⟨entry, hentry⟩ := exists_encodes r.entryType r.payload
        exact ⟨entry :: es, .cons hentry hes⟩
    obtain ⟨es, hes⟩ := hes
    exact ⟨rs, es, rest, hbody, fun rs' h => Encoded.list_prefix hrest (hbody ▸ h), hes,
      Madt.walk_entries hbody hrest hes hturns⟩

end StarOs.Acpi
