import StarOs.Acpi.Tables

/-! Parsing is total, and reads only what was checksummed. Each parser is equal to a
check of the declared length and its checksum, followed by reads below that length. -/

namespace StarOs.Acpi

open Library

/-- The word at `off`, where there is one. -/
def word32 (s : Slice) (off : ℕ) : UInt32 :=
  le32 (s.byte off) (s.byte (off + 1)) (s.byte (off + 2)) (s.byte (off + 3))

def word64 (s : Slice) (off : ℕ) : UInt64 :=
  le64 (s.byte off) (s.byte (off + 1)) (s.byte (off + 2)) (s.byte (off + 3)) (s.byte (off + 4))
    (s.byte (off + 5)) (s.byte (off + 6)) (s.byte (off + 7))

section

variable {s t : Slice} {off n : ℕ}

theorem index_sub (h : off + n ≤ s.length) {i : ℕ} (hi : i < n) :
    (s.sub off (off + n)).index i = .ok (s.byte (off + i)) := by
  rw [Slice.index_eq (by rw [Slice.length_sub]; omega), Slice.byte_sub (by omega)]

theorem u32At_eq (h : off + 4 ≤ s.length) : u32At s off = .ok (some (word32 s off)) := by
  have hlen := s.length_lt
  simp only [u32At, add_eq (show off + 4 < 2 ^ 64 by omega), checked_bind,
    Slice.get_eq (Nat.le_add_right off 4) h, index_sub h (show 0 < 4 by decide),
    index_sub h (show 1 < 4 by decide), index_sub h (show 2 < 4 by decide),
    index_sub h (show 3 < 4 by decide), word32, Nat.add_zero]

theorem u64At_eq (h : off + 8 ≤ s.length) : u64At s off = .ok (some (word64 s off)) := by
  have hlen := s.length_lt
  simp only [u64At, add_eq (show off + 8 < 2 ^ 64 by omega), checked_bind,
    Slice.get_eq (Nat.le_add_right off 8) h, index_sub h (show 0 < 8 by decide),
    index_sub h (show 1 < 8 by decide), index_sub h (show 2 < 8 by decide),
    index_sub h (show 3 < 8 by decide), index_sub h (show 4 < 8 by decide),
    index_sub h (show 5 < 8 by decide), index_sub h (show 6 < 8 by decide),
    index_sub h (show 7 < 8 by decide), word64, Nat.add_zero]

theorem u32At_none (hoff : off + 4 < 2 ^ 64) (h : s.length < off + 4) : u32At s off = .ok none := by
  simp only [u32At, add_eq hoff, checked_bind, Slice.get]
  rw [if_neg (by omega)]

theorem word32_agree (h : Slice.Agree n s t) (hoff : off + 4 ≤ n) : word32 s off = word32 t off := by
  simp only [word32, h.byte (i := off) (by omega), h.byte (i := off + 1) (by omega),
    h.byte (i := off + 2) (by omega), h.byte (i := off + 3) (by omega)]

theorem word64_agree (h : Slice.Agree n s t) (hoff : off + 8 ≤ n) : word64 s off = word64 t off := by
  simp only [word64, h.byte (i := off) (by omega), h.byte (i := off + 1) (by omega),
    h.byte (i := off + 2) (by omega), h.byte (i := off + 3) (by omega),
    h.byte (i := off + 4) (by omega), h.byte (i := off + 5) (by omega),
    h.byte (i := off + 6) (by omega), h.byte (i := off + 7) (by omega)]

end

/-! ### The header -/

/-- The length a table declares. -/
def declared (buf : Slice) : ℕ := (word32 buf 4).toNat

/-- A table whose declared length holds a header, fits the buffer and was checksummed. -/
structure Checksummed (buf : Slice) : Prop where
  header : sdtHeaderLen ≤ declared buf
  fits : declared buf ≤ buf.length
  sum : checksumOk (buf.sub 0 (declared buf)) = true

def headerOf (buf : Slice) : SdtHeader where
  signature := (buf.sub 0 4).bytes
  length := word32 buf 4
  revision := buf.byte 8
  oemTableId := (buf.sub 16 24).bytes

theorem SdtHeader.parse_of (buf : Slice) (h : Checksummed buf) :
    SdtHeader.parse buf = .ok (some (headerOf buf)) := by
  obtain ⟨hheader, hfits, hsum⟩ := h
  have hlen : 36 ≤ buf.length := Nat.le_trans hheader hfits
  have hrange : buf.range 0 (word32 buf 4).toNat = .ok (buf.sub 0 (word32 buf 4).toNat) :=
    Slice.range_eq (Nat.zero_le _) hfits
  have hdeclared : ¬((word32 buf 4).toNat < sdtHeaderLen ∨ (word32 buf 4).toNat > buf.length) := by
    simp only [declared] at hheader hfits
    omega
  have hsum : checksumOk (buf.sub 0 (word32 buf 4).toNat) = true := hsum
  simp only [SdtHeader.parse, if_neg (show ¬buf.length < sdtHeaderLen from Nat.not_lt.mpr hlen),
    u32At_eq (show 4 + 4 ≤ buf.length by omega), checked_bind, if_neg hdeclared,
    hrange, hsum, Bool.not_true, Bool.false_eq_true, if_false,
    Slice.range_eq (show 0 ≤ 4 by decide) (show 4 ≤ buf.length by omega),
    Slice.range_eq (show 16 ≤ 24 by decide) (show 24 ≤ buf.length by omega),
    Slice.index_eq (show 8 < buf.length by omega), headerOf]

theorem SdtHeader.parse_none (buf : Slice) (h : ¬Checksummed buf) :
    SdtHeader.parse buf = .ok none := by
  unfold SdtHeader.parse
  split
  · rfl
  · rename_i hlen
    have hlen : 36 ≤ buf.length := Nat.not_lt.mp hlen
    simp only [u32At_eq (show 4 + 4 ≤ buf.length by omega), checked_bind]
    split
    · rfl
    · rename_i hdeclared
      have hfits : declared buf ≤ buf.length := by
        simp only [declared]
        omega
      have hheader : sdtHeaderLen ≤ declared buf := by
        simp only [declared]
        omega
      have hsum : checksumOk (buf.sub 0 (word32 buf 4).toNat) = false := by
        by_contra hsum
        exact h ⟨hheader, hfits, by simpa [declared] using hsum⟩
      have hrange : buf.range 0 (word32 buf 4).toNat = .ok (buf.sub 0 (word32 buf 4).toNat) :=
        Slice.range_eq (Nat.zero_le _) hfits
      simp only [hrange, checked_bind, hsum, Bool.not_false, if_true]

/-- The same first bytes, the same table. -/
theorem Checksummed.agree {s t : Slice} (h : Checksummed s) (ha : Slice.Agree (declared s) s t) :
    Checksummed t ∧ declared t = declared s ∧ headerOf t = headerOf s := by
  have hheader : 36 ≤ declared s := h.header
  have hword : word32 s 4 = word32 t 4 := word32_agree ha (by omega)
  have hdeclared : declared t = declared s := by simp only [declared, hword]
  refine ⟨⟨hdeclared ▸ h.header, hdeclared ▸ ha.length_right, ?_⟩, hdeclared, ?_⟩
  · rw [hdeclared, ← ha.sub (Nat.le_refl _)]
    exact h.sum
  · simp only [headerOf, hword, ha.sub (a := 0) (b := 4) (by omega), ha.byte (i := 8) (by omega),
      ha.sub (a := 16) (b := 24) (by omega)]

/-! ### What a table's answer depends on -/

/-- What the parser makes of a table lies in the first `n` bytes, which were checksummed:
whatever follows them, the answer is the same. -/
def Covered {α : Type} (parse : Slice → Checked (Option α)) (n : Slice → ℕ) : Prop :=
  ∀ buf r, parse buf = .ok (some r) → n buf ≤ buf.length ∧
    checksumOk (buf.sub 0 (n buf)) = true ∧
    ∀ buf' : Slice, buf'.bytes.take (n buf) = buf.bytes.take (n buf) → parse buf' = .ok (some r)

/-- A parser of checksummed tables that reads below the declared length. -/
theorem covered_of_reads {α : Type} {parse : Slice → Checked (Option α)} {f : Slice → Option α}
    (hsome : ∀ buf, Checksummed buf → parse buf = .ok (f buf))
    (hnone : ∀ buf, ¬Checksummed buf → parse buf = .ok none)
    (hreads : ∀ s t, Checksummed s → Slice.Agree (declared s) s t → (f s).isSome → f t = f s) :
    Covered parse declared := by
  intro buf r hr
  by_cases hc : Checksummed buf
  · refine ⟨hc.fits, hc.sum, fun buf' htake => ?_⟩
    have ha := Slice.agree_of_take hc.fits htake
    have hf : f buf = some r := Except.ok.inj ((hsome buf hc).symm.trans hr)
    rw [hsome buf' (hc.agree ha).1, hreads buf buf' hc ha (by rw [hf]; rfl), hf]
  · cases (hnone buf hc).symm.trans hr

theorem SdtHeader.parse_ok (buf : Slice) : ∃ r, SdtHeader.parse buf = .ok r := by
  by_cases hc : Checksummed buf
  · exact ⟨_, SdtHeader.parse_of buf hc⟩
  · exact ⟨_, SdtHeader.parse_none buf hc⟩

theorem SdtHeader.covered : Covered SdtHeader.parse declared :=
  covered_of_reads (f := fun buf => some (headerOf buf)) SdtHeader.parse_of SdtHeader.parse_none
    fun s t hc ha _ => by rw [(hc.agree ha).2.2]

/-! ### The directory -/

namespace Directory

/-- The directory in a checksummed table. -/
def ofTable (width : ℕ) (buf : Slice) : Option Directory :=
  if (headerOf buf).signature = (if width = 8 then xsdtSignature else rsdtSignature) then
    some ⟨buf.sub sdtHeaderLen (declared buf), width⟩
  else none

theorem parse_of (width : ℕ) (buf : Slice) (h : Checksummed buf) :
    parse buf width = .ok (ofTable width buf) := by
  simp only [parse, SdtHeader.parse_of buf h, checked_bind, ofTable]
  by_cases hsig : (headerOf buf).signature = (if width = 8 then xsdtSignature else rsdtSignature)
  · rw [if_neg (not_not.mpr hsig), if_pos hsig]
    have hget : buf.get sdtHeaderLen (headerOf buf).length.toNat =
        some (buf.sub sdtHeaderLen (declared buf)) := Slice.get_eq h.header h.fits
    rw [hget]
  · rw [if_pos hsig, if_neg hsig]

theorem parse_none (width : ℕ) (buf : Slice) (h : ¬Checksummed buf) :
    parse buf width = .ok none := by
  simp only [parse, SdtHeader.parse_none buf h, checked_bind]

theorem covered (width : ℕ) : Covered (parse · width) declared := by
  refine covered_of_reads (f := ofTable width) (parse_of width) (parse_none width) ?_
  intro s t hc ha _
  obtain ⟨-, hdeclared, hheader⟩ := hc.agree ha
  simp only [ofTable, hheader, hdeclared, ha.sub (Nat.le_refl _)]

theorem width_of_parse {buf : Slice} {width : ℕ} {d : Directory}
    (h : parse buf width = .ok (some d)) : d.width = width := by
  by_cases hc : Checksummed buf
  · have hd : ofTable width buf = some d := Except.ok.inj ((parse_of width buf hc).symm.trans h)
    unfold ofTable at hd
    by_cases hsig : (headerOf buf).signature = (if width = 8 then xsdtSignature else rsdtSignature)
    · rw [if_pos hsig] at hd
      rw [← Option.some.inj hd]
    · rw [if_neg hsig] at hd
      cases hd
  · cases (parse_none width buf hc).symm.trans h

theorem entry_ok {d : Directory} {i : ℕ} (hwidth : d.width = 4 ∨ d.width = 8)
    (hi : i < d.entries.length / d.width) : ∃ r, d.entry i = .ok r := by
  have hlen := d.entries.length_lt
  have hend : i * d.width + d.width ≤ d.entries.length := by
    have hmul := Nat.mul_le_mul_right d.width (Nat.succ_le_of_lt hi)
    have hdiv := Nat.div_mul_le_self d.entries.length d.width
    rw [Nat.succ_mul] at hmul
    omega
  have hoff : checkedMul i d.width = some (i * d.width) := if_pos (by omega)
  simp only [entry, hoff]
  split
  · rename_i hw
    exact ⟨_, u64At_eq (by omega)⟩
  · rename_i hw
    exact ⟨_, by rw [u32At_eq (show i * d.width + 4 ≤ d.entries.length by omega), checked_bind]⟩

theorem iter_ok {d : Directory} (hwidth : d.width = 4 ∨ d.width = 8) : ∃ l, d.iter = .ok l := by
  have hlen : d.len = .ok (d.entries.length / d.width) := if_neg (by omega)
  obtain ⟨l, hl⟩ := filterMapRange_ok fun i hi => entry_ok hwidth hi
  exact ⟨l, by rw [iter, hlen, checked_bind, hl]⟩

end Directory

/-! ### The interrupt topology -/

namespace MadtIter

variable {it : MadtIter} {e : Slice} {t : UInt8}

/-- An entry as long as its type asks for decodes. -/
theorem decode_ok (t : UInt8) (e : Slice) : ∃ entry, decode t e.length e = .ok (some entry) := by
  unfold decode
  split
  · rename_i h
    simp only [Slice.index_eq (show 2 < e.length by omega),
      Slice.index_eq (show 3 < e.length by omega), u32At_eq (show 4 + 4 ≤ e.length by omega),
      checked_bind]
    exact ⟨_, rfl⟩
  split
  · rename_i h
    simp only [Slice.index_eq (show 2 < e.length by omega),
      u32At_eq (show 4 + 4 ≤ e.length by omega), u32At_eq (show 8 + 4 ≤ e.length by omega),
      checked_bind]
    exact ⟨_, rfl⟩
  split
  · rename_i h
    simp only [Slice.index_eq (show 2 < e.length by omega),
      Slice.index_eq (show 3 < e.length by omega), u32At_eq (show 4 + 4 ≤ e.length by omega),
      Slice.index_eq (show 8 < e.length by omega), Slice.index_eq (show 9 < e.length by omega),
      checked_bind]
    exact ⟨_, rfl⟩
  split
  · rename_i h
    simp only [Slice.index_eq (show 2 < e.length by omega),
      Slice.index_eq (show 3 < e.length by omega), Slice.index_eq (show 4 < e.length by omega),
      Slice.index_eq (show 5 < e.length by omega), checked_bind]
    exact ⟨_, rfl⟩
  split
  · rename_i h
    simp only [u32At_eq (show 4 + 4 ≤ e.length by omega), u32At_eq (show 12 + 4 ≤ e.length by omega),
      u32At_eq (show 8 + 4 ≤ e.length by omega), checked_bind]
    exact ⟨_, rfl⟩
  exact ⟨_, rfl⟩

/-- A turn never faults, and moves on past the two bytes of an entry's header. -/
theorem next_ok (it : MadtIter) : it.next = .ok none ∨
    ∃ e off, it.next = .ok (some (e, { it with off := off })) ∧ it.off + 2 ≤ off ∧
      off ≤ it.body.length := by
  have hlen := it.body.length_lt
  have hbyte : ∀ i, (∃ b, it.body.getByte i = some b ∧ i < it.body.length) ∨
      it.body.getByte i = none := by
    intro i
    by_cases hi : i < it.body.length
    · exact .inl ⟨_, Slice.getByte_eq hi, hi⟩
    · exact .inr (Slice.getByte_eq_none (Nat.not_lt.mp hi))
  unfold next
  obtain ⟨t, ht, htl⟩ | ht := hbyte it.off
  · simp only [ht, add_eq (show it.off + 1 < 2 ^ 64 by omega), checked_bind]
    obtain ⟨b, hb, hbl⟩ | hb := hbyte (it.off + 1)
    · have hb256 : b.toNat < 256 := b.toNat_lt
      simp only [hb, add_eq (show it.off + b.toNat < 2 ^ 64 by omega), checked_bind]
      by_cases hmin : b.toNat < 2
      · exact .inl (if_pos hmin)
      by_cases hfit : it.off + b.toNat > it.body.length
      · exact .inl (by rw [if_neg hmin, if_pos hfit])
      · have hsub : (it.body.sub it.off (it.off + b.toNat)).length = b.toNat := by
          rw [Slice.length_sub]
          omega
        obtain ⟨entry, hentry⟩ := decode_ok t (it.body.sub it.off (it.off + b.toNat))
        rw [hsub] at hentry
        simp only [if_neg hmin, if_neg hfit,
          Slice.range_eq (show it.off ≤ it.off + b.toNat by omega)
            (show it.off + b.toNat ≤ it.body.length by omega), checked_bind, hentry]
        exact .inr ⟨entry, it.off + b.toNat, rfl, by omega, by omega⟩
    · exact .inl (by simp only [hb])
  · exact .inl (by simp only [ht])

/-- A loop over the entries ends without a fault, when its body does at every offset
reached: no entry is shorter than its header, so there are no more than half as many turns
as bytes. -/
theorem forIn_ok {σ : Type} {body : MadtEntry → σ → Checked (ForInStep σ)} (P : ℕ → σ → Prop)
    {turns : ℕ} {s : σ} (hturns : it.body.length - it.off < 2 * turns) (hs : P it.off s)
    (hbody : ∀ e off off' s, P off s → off + 2 ≤ off' → off' ≤ it.body.length →
      (∃ r, body e s = .ok (.done r)) ∨ ∃ r, body e s = .ok (.yield r) ∧ P off' r) :
    ∃ r, forIn turns it s body = .ok r := by
  induction turns generalizing it s with
  | zero => omega
  | succ turns ih =>
    obtain hnone | ⟨e, off, hsome, hmove, hfit⟩ := next_ok it
    · exact ⟨s, by simp only [forIn, hnone, checked_bind]⟩
    · obtain ⟨r, hr⟩ | ⟨r, hr, hP⟩ := hbody e it.off off s hs hmove hfit
      · exact ⟨r, by simp only [forIn, hsome, checked_bind, hr]⟩
      · obtain ⟨r', hr'⟩ := @ih { it with off := off } r (by dsimp only; omega) hP hbody
        exact ⟨r', by simp only [forIn, hsome, checked_bind, hr, hr']⟩

theorem findMap_ok {α : Type} {turns : ℕ} (it : MadtIter)
    (hturns : it.body.length - it.off < 2 * turns) (f : MadtEntry → Option α) :
    ∃ r, it.findMap turns f = .ok r := by
  refine forIn_ok (fun _ _ => True) hturns trivial ?_
  intro e _ _ r _ _ _
  cases f e with
  | some a => exact .inl ⟨some a, rfl⟩
  | none => exact .inr ⟨r, rfl, trivial⟩

end MadtIter

namespace Madt

/-- The MADT in a checksummed table. -/
def ofTable (buf : Slice) : Option Madt :=
  if (headerOf buf).signature = apicSignature ∧ 44 ≤ declared buf then
    some ⟨buf.sub 44 (declared buf), word32 buf 36, word32 buf 40 &&& 1 != 0⟩
  else none

theorem u32At_ok (s : Slice) {off : ℕ} (hoff : off + 4 < 2 ^ 64) : ∃ r, u32At s off = .ok r := by
  by_cases h : off + 4 ≤ s.length
  · exact ⟨_, u32At_eq h⟩
  · exact ⟨_, u32At_none hoff (Nat.not_le.mp h)⟩

theorem parse_of (buf : Slice) (h : Checksummed buf) : parse buf = .ok (ofTable buf) := by
  have hfits := h.fits
  simp only [parse, SdtHeader.parse_of buf h, checked_bind, ofTable]
  by_cases hsig : (headerOf buf).signature = apicSignature
  · rw [if_neg (not_not.mpr hsig)]
    by_cases hlen : 44 ≤ declared buf
    · have hget : buf.get 44 (headerOf buf).length.toNat = some (buf.sub 44 (declared buf)) :=
        Slice.get_eq hlen hfits
      simp only [u32At_eq (show 36 + 4 ≤ buf.length by omega),
        u32At_eq (show 40 + 4 ≤ buf.length by omega), checked_bind, hget]
      rw [if_pos ⟨hsig, hlen⟩]
    · -- a body that would start past its end is refused, whatever was read before
      have hget : buf.get 44 (headerOf buf).length.toNat = none := 
        Slice.get_eq_none (Nat.not_le.mp hlen)
      obtain ⟨r, hr⟩ := u32At_ok buf (show 36 + 4 < 2 ^ 64 by decide)
      obtain ⟨r', hr'⟩ := u32At_ok buf (show 40 + 4 < 2 ^ 64 by decide)
      simp only [hr, hr', checked_bind, hget]
      rw [if_neg fun hboth => hlen hboth.2]
      cases r <;> cases r' <;> rfl
  · rw [if_pos hsig, if_neg fun hboth => hsig hboth.1]

theorem parse_none (buf : Slice) (h : ¬Checksummed buf) : parse buf = .ok none := by
  simp only [parse, SdtHeader.parse_none buf h, checked_bind]

theorem covered : Covered parse declared := by
  refine covered_of_reads parse_of parse_none fun s t hc ha hsome => ?_
  obtain ⟨-, hdeclared, hheader⟩ := hc.agree ha
  have hlen : 44 ≤ declared s := by
    by_contra hlen
    rw [ofTable, if_neg fun hboth => hlen hboth.2] at hsome
    cases hsome
  simp only [ofTable, hheader, hdeclared, ha.sub (Nat.le_refl _),
    word32_agree ha (show 36 + 4 ≤ declared s by omega),
    word32_agree ha (show 40 + 4 ≤ declared s by omega)]

variable {m : Madt} {turns : ℕ}

theorem walk_ok (h : m.body.length < 2 * turns) : ∃ l, m.walk turns = .ok l :=
  MadtIter.forIn_ok (fun _ _ => True) h trivial
    fun e _ _ l _ _ _ => .inr ⟨l ++ [e], rfl, trivial⟩

theorem cpus_ok (h : m.body.length < 2 * turns) (out : List UInt32) :
    ∃ r, m.cpus turns out = .ok r := by
  have hlen := m.body.length_lt
  -- no more CPUs than bytes walked
  refine MadtIter.forIn_ok (fun off s => s.1 ≤ off) h (Nat.le_refl 0) ?_
  rintro e off off' ⟨n, out⟩ hn hmove hfit
  dsimp only at hn hfit ⊢
  have hfit : off' ≤ m.body.length := hfit
  cases enabledId e with
  | none => exact .inr ⟨(n, out), rfl, by dsimp only; omega⟩
  | some id =>
    refine .inr ⟨(n + 1, if n < out.length then out.set n id else out), ?_, by dsimp only; omega⟩
    simp only [add_eq (show n + 1 < 2 ^ 64 by omega), checked_bind]

theorem firstIoApic_ok (h : m.body.length < 2 * turns) : ∃ r, m.firstIoApic turns = .ok r :=
  MadtIter.findMap_ok m.entries h _

theorem gsiForIrq_ok (h : m.body.length < 2 * turns) (irq : UInt8) :
    ∃ gsi, m.gsiForIrq turns irq = .ok gsi := by
  obtain ⟨r, hr⟩ := MadtIter.findMap_ok m.entries h (overrideOf irq)
  exact ⟨r.getD irq.toUInt32, by rw [gsiForIrq, hr, checked_bind]⟩

end Madt

/-! ### The configuration windows and the timer -/

namespace Mcfg

/-- The MCFG in a checksummed table. -/
def ofTable (buf : Slice) : Option Mcfg :=
  if (headerOf buf).signature = mcfgSignature ∧ 44 ≤ declared buf then
    some ⟨buf.sub 44 (declared buf)⟩
  else none

theorem parse_of (buf : Slice) (h : Checksummed buf) : parse buf = .ok (ofTable buf) := by
  simp only [parse, SdtHeader.parse_of buf h, checked_bind, ofTable]
  by_cases hsig : (headerOf buf).signature = mcfgSignature
  · rw [if_neg (not_not.mpr hsig)]
    by_cases hlen : 44 ≤ declared buf
    · have hget : buf.get 44 (headerOf buf).length.toNat = some (buf.sub 44 (declared buf)) :=
        Slice.get_eq hlen h.fits
      rw [hget, if_pos ⟨hsig, hlen⟩]
    · have hget : buf.get 44 (headerOf buf).length.toNat = none :=
        Slice.get_eq_none (Nat.not_le.mp hlen)
      rw [hget, if_neg fun hboth => hlen hboth.2]
  · rw [if_pos hsig, if_neg fun hboth => hsig hboth.1]

theorem parse_none (buf : Slice) (h : ¬Checksummed buf) : parse buf = .ok none := by
  simp only [parse, SdtHeader.parse_none buf h, checked_bind]

theorem covered : Covered parse declared := by
  refine covered_of_reads parse_of parse_none fun s t hc ha _ => ?_
  obtain ⟨-, hdeclared, hheader⟩ := hc.agree ha
  simp only [ofTable, hheader, hdeclared, ha.sub (Nat.le_refl _)]

theorem window_ok {m : Mcfg} {i : ℕ} (hi : i < m.body.length / 16) :
    ∃ r, m.window i = .ok r := by
  have hlen := m.body.length_lt
  have hend : i * 16 + 16 ≤ m.body.length := by omega
  have hsub : (m.body.sub (i * 16) (i * 16 + 16)).length = 16 := by
    rw [Slice.length_sub]
    omega
  simp only [window, mul_eq (show i * 16 < 2 ^ 64 by omega),
    add_eq (show i * 16 + 16 < 2 ^ 64 by omega), checked_bind,
    Slice.get_eq (Nat.le_add_right (i * 16) 16) hend,
    u64At_eq (show 0 + 8 ≤ (m.body.sub (i * 16) (i * 16 + 16)).length by omega),
    index_sub hend (show 8 < 16 by decide), index_sub hend (show 9 < 16 by decide),
    index_sub hend (show 10 < 16 by decide), index_sub hend (show 11 < 16 by decide)]
  exact ⟨_, rfl⟩

theorem windows_ok (m : Mcfg) : ∃ l, m.windows = .ok l := by
  have hlen : div m.body.length 16 = .ok (m.body.length / 16) := if_neg (by decide)
  obtain ⟨l, hl⟩ := filterMapRange_ok fun i hi => window_ok (m := m) hi
  exact ⟨l, by rw [windows, hlen, checked_bind, hl]⟩

end Mcfg

namespace Hpet

/-- The HPET in a checksummed table. -/
def ofTable (buf : Slice) : Option Hpet :=
  if (headerOf buf).signature = hpetSignature ∧ 56 ≤ declared buf then
    some ⟨word64 buf 44, buf.byte 52, le16 (buf.byte 53) (buf.byte 54)⟩
  else none

theorem parse_of (buf : Slice) (h : Checksummed buf) : parse buf = .ok (ofTable buf) := by
  have hfits := h.fits
  have hdeclared : (headerOf buf).length.toNat = declared buf := rfl
  simp only [parse, SdtHeader.parse_of buf h, checked_bind, ofTable, hdeclared]
  by_cases hboth : (headerOf buf).signature = hpetSignature ∧ 56 ≤ declared buf
  · have hlen := hboth.2
    have hkeep : ¬((headerOf buf).signature ≠ hpetSignature ∨ declared buf < 56) := by
      rintro (hsig | hshort)
      · exact hsig hboth.1
      · omega
    rw [if_pos hboth, if_neg hkeep]
    simp only [u64At_eq (show 44 + 8 ≤ buf.length by omega),
      Slice.index_eq (show 52 < buf.length by omega), Slice.index_eq (show 53 < buf.length by omega),
      Slice.index_eq (show 54 < buf.length by omega), checked_bind]
  · rw [if_neg hboth, if_pos]
    by_cases hsig : (headerOf buf).signature = hpetSignature
    · exact .inr (Nat.not_le.mp fun hlen => hboth ⟨hsig, hlen⟩)
    · exact .inl hsig

theorem parse_none (buf : Slice) (h : ¬Checksummed buf) : parse buf = .ok none := by
  simp only [parse, SdtHeader.parse_none buf h, checked_bind]

theorem covered : Covered parse declared := by
  refine covered_of_reads parse_of parse_none fun s t hc ha hsome => ?_
  obtain ⟨-, hdeclared, hheader⟩ := hc.agree ha
  have hlen : 56 ≤ declared s := by
    by_contra hlen
    rw [ofTable, if_neg fun hboth => hlen hboth.2] at hsome
    cases hsome
  simp only [ofTable, hheader, hdeclared, word64_agree ha (show 44 + 8 ≤ declared s by omega),
    ha.byte (show 52 < declared s by omega), ha.byte (show 53 < declared s by omega),
    ha.byte (show 54 < declared s by omega)]

end Hpet

/-! ### The root pointer -/

namespace Rsdp

/-- The length a root pointer declares: 20 bytes before revision 2. -/
def declared (buf : Slice) : ℕ := if buf.byte 15 ≥ 2 then (word32 buf 20).toNat else rsdpV1Len

/-- Both checksums pass. -/
structure Valid (buf : Slice) : Prop where
  length : rsdpV1Len ≤ buf.length
  signature : (buf.sub 0 8).bytes = rsdpSignature
  sum : checksumOk (buf.sub 0 rsdpV1Len) = true
  extended : buf.byte 15 ≥ 2 → rsdpV2Len ≤ declared buf ∧ declared buf ≤ buf.length ∧
    checksumOk (buf.sub 0 (declared buf)) = true

def ofBytes (buf : Slice) : Rsdp where
  revision := buf.byte 15
  rsdt := word32 buf 16
  xsdt := if buf.byte 15 ≥ 2 then word64 buf 24 else 0
  oemId := (buf.sub 9 15).bytes

theorem parseExtended_of {buf : Slice} (hrev : buf.byte 15 ≥ 2) (h : Valid buf) :
    parseExtended buf = .ok (some (word64 buf 24)) := by
  obtain ⟨hmin, hfits, hsum⟩ := h.extended hrev
  simp only [declared, if_pos hrev] at hmin hfits hsum
  have hlen : 36 ≤ buf.length := Nat.le_trans hmin hfits
  simp only [parseExtended, if_neg (show ¬buf.length < rsdpV2Len from Nat.not_lt.mpr hlen),
    u32At_eq (show 20 + 4 ≤ buf.length by omega), checked_bind, if_pos (And.intro hmin hfits),
    Slice.range_eq (Nat.zero_le _) hfits, hsum, if_true,
    u64At_eq (show 24 + 8 ≤ buf.length by omega)]

theorem parse_of (buf : Slice) (h : Valid buf) : parse buf = .ok (some (ofBytes buf)) := by
  have hlen : 20 ≤ buf.length := h.length
  have hsig : ¬(buf.sub 0 8).bytes ≠ rsdpSignature := not_not.mpr h.signature
  have hv1 : buf.range 0 rsdpV1Len = .ok (buf.sub 0 rsdpV1Len) :=
    Slice.range_eq (Nat.zero_le _) h.length
  simp only [parse, if_neg (show ¬buf.length < rsdpV1Len from Nat.not_lt.mpr hlen),
    Slice.range_eq (show 0 ≤ 8 by decide) (show 8 ≤ buf.length by omega), checked_bind,
    if_neg hsig, hv1, h.sum, Bool.not_true, Bool.false_eq_true, if_false,
    Slice.index_eq (show 15 < buf.length by omega), u32At_eq (show 16 + 4 ≤ buf.length by omega),
    Slice.range_eq (show 9 ≤ 15 by decide) (show 15 ≤ buf.length by omega), ofBytes]
  by_cases hrev : buf.byte 15 ≥ 2
  · simp only [if_pos hrev, parseExtended_of hrev h, checked_bind]
  · simp only [if_neg hrev]

theorem parseExtended_none {buf : Slice} (hrev : buf.byte 15 ≥ 2)
    (h : ¬(rsdpV2Len ≤ declared buf ∧ declared buf ≤ buf.length ∧
      checksumOk (buf.sub 0 (declared buf)) = true)) : parseExtended buf = .ok none := by
  simp only [declared, if_pos hrev] at h
  by_cases hlen : buf.length < rsdpV2Len
  · exact if_pos hlen
  · have hlen' : 36 ≤ buf.length := Nat.not_lt.mp hlen
    simp only [parseExtended, if_neg hlen, u32At_eq (show 20 + 4 ≤ buf.length by omega),
      checked_bind]
    by_cases hboth : rsdpV2Len ≤ (word32 buf 20).toNat ∧ (word32 buf 20).toNat ≤ buf.length
    · have hsum : checksumOk (buf.sub 0 (word32 buf 20).toNat) = false := by
        by_contra hsum
        exact h ⟨hboth.1, hboth.2, by simpa using hsum⟩
      simp only [if_pos hboth, Slice.range_eq (Nat.zero_le _) hboth.2, checked_bind, hsum,
        Bool.false_eq_true, if_false]
    · rw [if_neg hboth]

theorem parse_none (buf : Slice) (h : ¬Valid buf) : parse buf = .ok none := by
  by_cases hlen : buf.length < rsdpV1Len
  · exact if_pos hlen
  have hlen' : 20 ≤ buf.length := Nat.not_lt.mp hlen
  have hv1 : buf.range 0 rsdpV1Len = .ok (buf.sub 0 rsdpV1Len) :=
    Slice.range_eq (Nat.zero_le _) hlen'
  simp only [parse, if_neg hlen, Slice.range_eq (show 0 ≤ 8 by decide) (show 8 ≤ buf.length by omega),
    checked_bind]
  by_cases hsig : (buf.sub 0 8).bytes = rsdpSignature
  · rw [if_neg (not_not.mpr hsig)]
    cases hsum : checksumOk (buf.sub 0 rsdpV1Len) with
    | false => simp only [hv1, checked_bind, hsum, Bool.not_false, if_true]
    | true =>
      have hrev : buf.byte 15 ≥ 2 := by
        by_contra hrev
        exact h ⟨hlen', hsig, hsum, fun hr => absurd hr hrev⟩
      have hext := parseExtended_none hrev fun hboth => h ⟨hlen', hsig, hsum, fun _ => hboth⟩
      simp only [hv1, checked_bind, hsum, Bool.not_true, Bool.false_eq_true, if_false,
        Slice.index_eq (show 15 < buf.length by omega),
        u32At_eq (show 16 + 4 ≤ buf.length by omega),
        Slice.range_eq (show 9 ≤ 15 by decide) (show 15 ≤ buf.length by omega), if_pos hrev, hext]
  · rw [if_pos hsig]

theorem parse_ok (buf : Slice) : ∃ r, parse buf = .ok r := by
  by_cases hv : Valid buf
  · exact ⟨_, parse_of buf hv⟩
  · exact ⟨_, parse_none buf hv⟩

theorem Valid.declared_ge {buf : Slice} (h : Valid buf) : rsdpV1Len ≤ declared buf ∧
    declared buf ≤ buf.length ∧ checksumOk (buf.sub 0 (declared buf)) = true := by
  by_cases hrev : buf.byte 15 ≥ 2
  · obtain ⟨hmin, hfits, hsum⟩ := h.extended hrev
    exact ⟨Nat.le_trans (by decide) hmin, hfits, hsum⟩
  · simp only [declared, if_neg hrev]
    exact ⟨Nat.le_refl _, h.length, h.sum⟩

theorem covered : Covered parse declared := by
  intro buf r hr
  by_cases hv : Valid buf
  · obtain ⟨hmin, hfits, hsum⟩ := hv.declared_ge
    refine ⟨hfits, hsum, fun buf' htake => ?_⟩
    have ha := Slice.agree_of_take hfits htake
    have hmin' : 20 ≤ declared buf := hmin
    have hbyte : buf.byte 15 = buf'.byte 15 := ha.byte (by omega)
    have hdeclared : declared buf' = declared buf := by
      by_cases hrev : buf.byte 15 ≥ 2
      · have hlong := (hv.extended hrev).1
        have hlong : 36 ≤ declared buf := hlong
        have hword := word32_agree ha (show 20 + 4 ≤ declared buf by omega)
        simp only [declared, ← hbyte, hword]
      · simp only [declared, ← hbyte, if_neg hrev]
    have hv' : Valid buf' := by
      refine ⟨Nat.le_trans hmin ha.length_right, ?_, ?_, fun hrev => ?_⟩
      · rw [← ha.sub (show 8 ≤ declared buf by omega)]
        exact hv.signature
      · rw [← ha.sub hmin]
        exact hv.sum
      · rw [hdeclared, ← ha.sub (Nat.le_refl _)]
        obtain ⟨hlong, -, hsum⟩ := hv.extended (hbyte ▸ hrev)
        exact ⟨hlong, ha.length_right, hsum⟩
    have hsame : ofBytes buf' = ofBytes buf := by
      have hxsdt : (if buf.byte 15 ≥ 2 then word64 buf' 24 else 0) =
          if buf.byte 15 ≥ 2 then word64 buf 24 else 0 := by
        by_cases hrev : buf.byte 15 ≥ 2
        · have hlong : 36 ≤ declared buf := (hv.extended hrev).1
          rw [if_pos hrev, if_pos hrev, word64_agree ha (show 24 + 8 ≤ declared buf by omega)]
        · rw [if_neg hrev, if_neg hrev]
      simp only [ofBytes, ← hbyte, hxsdt, ← word32_agree ha (show 16 + 4 ≤ declared buf by omega),
        ← ha.sub (a := 9) (show 15 ≤ declared buf by omega)]
    rw [← hr, parse_of buf hv, parse_of buf' hv', hsame]
  · cases (parse_none buf hv).symm.trans hr

end Rsdp

/-- Parsing any slice ends without a panic, its walks included, and whatever answers with
a table reads no byte past the length that was checksummed. -/
theorem parsing_total_and_covered :
    (∀ buf, ∃ r, Rsdp.parse buf = .ok r) ∧
    (∀ buf, ∃ r, SdtHeader.parse buf = .ok r) ∧
    (∀ buf width, width = 4 ∨ width = 8 → ∃ r, Directory.parse buf width = .ok r ∧
      ∀ d, r = some d → ∃ addresses, d.iter = .ok addresses) ∧
    (∀ buf, ∃ r, Madt.parse buf = .ok r ∧ ∀ m, r = some m →
      ∀ turns, m.body.length < 2 * turns → (∃ l, m.walk turns = .ok l) ∧
        (∀ out, ∃ found, m.cpus turns out = .ok found) ∧
        (∃ found, m.firstIoApic turns = .ok found) ∧
        ∀ irq, ∃ gsi, m.gsiForIrq turns irq = .ok gsi) ∧
    (∀ buf, ∃ r, Mcfg.parse buf = .ok r ∧ ∀ m, r = some m → ∃ l, m.windows = .ok l) ∧
    (∀ buf, ∃ r, Hpet.parse buf = .ok r) ∧
    Covered Rsdp.parse Rsdp.declared ∧ Covered SdtHeader.parse declared ∧
    (∀ width, Covered (Directory.parse · width) declared) ∧ Covered Madt.parse declared ∧
    Covered Mcfg.parse declared ∧ Covered Hpet.parse declared := by
  have htable : ∀ {α : Type} {parse : Slice → Checked (Option α)} {f : Slice → Option α},
      (∀ buf, Checksummed buf → parse buf = .ok (f buf)) →
      (∀ buf, ¬Checksummed buf → parse buf = .ok none) → ∀ buf, ∃ r, parse buf = .ok r := by
    intro α parse f hsome hnone buf
    by_cases hc : Checksummed buf
    · exact ⟨_, hsome buf hc⟩
    · exact ⟨_, hnone buf hc⟩
  refine ⟨Rsdp.parse_ok, SdtHeader.parse_ok, ?_, ?_, ?_, htable Hpet.parse_of Hpet.parse_none,
    Rsdp.covered, SdtHeader.covered, Directory.covered, Madt.covered, Mcfg.covered, Hpet.covered⟩
  · intro buf width hwidth
    obtain ⟨r, hr⟩ := htable (Directory.parse_of width) (Directory.parse_none width) buf
    refine ⟨r, hr, fun d hd => Directory.iter_ok ?_⟩
    rw [Directory.width_of_parse (hd ▸ hr)]
    exact hwidth
  · intro buf
    obtain ⟨r, hr⟩ := htable Madt.parse_of Madt.parse_none buf
    exact ⟨r, hr, fun m _ turns hturns => ⟨Madt.walk_ok hturns, Madt.cpus_ok hturns,
      Madt.firstIoApic_ok hturns, Madt.gsiForIrq_ok hturns⟩⟩
  · intro buf
    obtain ⟨r, hr⟩ := htable Mcfg.parse_of Mcfg.parse_none buf
    exact ⟨r, hr, fun m _ => m.windows_ok⟩

end StarOs.Acpi
