import StarOs.Arch.IoApic

/-! Which GSIs an I/O APIC has, near the top of the 32 bits they are counted in. The first GSI is
the firmware's to choose, and `covers`, `mask_all` and the line `init_apic` prints all add to it. -/

namespace StarOs.Arch

def ioapicRegId : UInt32 := 0x00

namespace IoApic

def id (io : IoApic) : UInt8 × IoApic :=
  let (value, io) := io.readReg ioapicRegId
  (((value >>> 24) &&& 0xF).toUInt8, io)

def version (io : IoApic) : UInt8 × IoApic :=
  let (value, io) := io.readReg ioapicRegVersion
  (value.toUInt8, io)

/-- What `init_apic` prints of the controller. -/
structure Report where
  id : UInt8
  version : UInt8
  entries : UInt32
  first : UInt32
  stop : UInt32
  deriving DecidableEq

/-- What `init_apic` does with a controller; none where it panics. -/
def initApic (io : IoApic) : Option Report × IoApic :=
  match io.maskAll with
  | (none, io) => (none, io)
  | (some (), io) =>
    let (id, io) := io.id
    let (version, io) := io.version
    let (entries, io) := io.entryCount
    let (count, io) := io.entryCount
    ((addU32 io.gsiBase count).map fun stop => ⟨id, version, entries, io.gsiBase, stop⟩, io)

/-- The GSI is one of this controller's, in the integers. -/
def Has (io : IoApic) (gsi : UInt32) : Prop :=
  io.gsiBase.toNat ≤ gsi.toNat ∧ gsi.toNat - io.gsiBase.toNat < io.count

instance (io : IoApic) (gsi : UInt32) : Decidable (io.Has gsi) :=
  inferInstanceAs (Decidable (_ ∧ _))

/-- Every answer about GSIs is the integers' answer, and none of the sums overflows. -/
structure Exact (io : IoApic) : Prop where
  covers : ∀ gsi, (io.covers gsi).1 = some (decide (io.Has gsi))
  masked : io.maskAll.1 = some ()
  printed : io.initApic.1.isSome
  bounded : ∀ gsi, io.Has gsi → ∃ low high, io.entryRegs gsi = some (low, high) ∧
    low.toNat ≤ 0x10 + 2 * io.count - 1 ∧ high.toNat ≤ 0x10 + 2 * io.count - 1
  apart : ∀ gsi gsi', io.Has gsi → io.Has gsi' → gsi ≠ gsi' →
    ∀ low high low' high', io.entryRegs gsi = some (low, high) →
      io.entryRegs gsi' = some (low', high') → [low, high, low', high'].Nodup

section

variable {io : IoApic} {gsi gsi' : UInt32}

theorem addU32_isSome {a b : UInt32} : (addU32 a b).isSome ↔ a.toNat + b.toNat < 2 ^ 32 := by
  unfold addU32
  split
  · next h => exact iff_of_true rfl h
  · next h => exact iff_of_false nofun h

/-- What `covers` answers: for a GSI from the first on, nothing where the sum overflows. -/
theorem covers_answer (io : IoApic) (gsi : UInt32) : (io.covers gsi).1 =
    if io.gsiBase.toNat ≤ gsi.toNat ∧ ¬io.gsiBase.toNat + io.count < 2 ^ 32 then none
    else some (decide (io.Has gsi)) := by
  obtain ⟨hcount, -⟩ : (io.entryCount).1.toNat = io.count ∧ _ := entryCount_eq
  rw [covers_ite]
  by_cases hge : io.gsiBase ≤ gsi
  · have hle := UInt32.le_iff_toNat_le.mp hge
    rw [if_pos hge, addU32, hcount]
    by_cases hfits : io.gsiBase.toNat + io.count < 2 ^ 32
    · have hstop : (io.gsiBase + io.entryCount.1).toNat = io.gsiBase.toNat + io.count := by
        rw [UInt32.toNat_add, hcount, Nat.mod_eq_of_lt hfits]
      rw [if_pos hfits, if_neg fun h => h.2 hfits, Option.map_some]
      refine congrArg some (decide_eq_decide.mpr ?_)
      rw [UInt32.lt_iff_toNat_lt, hstop, Has]
      omega
    · rw [if_neg hfits, if_pos ⟨hle, hfits⟩]
      rfl
  · have hlt : ¬io.gsiBase.toNat ≤ gsi.toNat := mt UInt32.le_iff_toNat_le.mpr hge
    rw [if_neg hge, if_neg fun h => hlt h.1]
    exact congrArg some (decide_eq_false fun h => hlt h.1).symm

/-- `mask_all` gets through even where the GSIs end with the last there is. -/
theorem maskAll_isSome (io : IoApic) :
    io.maskAll.1 = some () ↔ io.gsiBase.toNat + io.count ≤ 2 ^ 32 := by
  obtain ⟨io', hmask, -⟩ := maskAll_spec io
  have hbase := io.gsiBase.toNat_lt
  have hreach : io.reach = io.count ↔ io.gsiBase.toNat + io.count ≤ 2 ^ 32 := by
    unfold reach
    omega
  rw [hmask, ← hreach]
  split
  · next h => exact iff_of_true rfl h
  · next h => exact iff_of_false nofun h

/-- The line is printed where `covers` can answer. -/
theorem initApic_isSome (io : IoApic) :
    io.initApic.1.isSome ↔ io.gsiBase.toNat + io.count < 2 ^ 32 := by
  have hmask := maskAll_isSome io
  obtain ⟨io', hrun, hregs, hgsi, -⟩ := maskAll_spec io
  have hreach : io.reach ≤ 256 := Nat.le_trans (Nat.min_le_left _ _) (countOf_le _)
  have hcount : io'.count = io.count := by
    rw [count, hregs, countOf_blanked hreach]
    rfl
  cases hout : io.maskAll with
  | mk out io₁ =>
    obtain rfl : io' = io₁ := by rw [hrun] at hout; exact (Prod.ext_iff.mp hout).2
    rw [hout] at hmask
    cases out with
    | none =>
      have hover : ¬io.gsiBase.toNat + io.count ≤ 2 ^ 32 := fun h => by cases hmask.mpr h
      simp only [initApic, hout, Option.isSome_none, Bool.false_eq_true, false_iff]
      omega
    | some u =>
      obtain ⟨hentries, -⟩ : (io'.entryCount).1.toNat = io'.count ∧ _ := entryCount_eq
      have hprint : io.initApic.1.isSome = (addU32 io'.gsiBase io'.entryCount.1).isSome := by
        simp only [initApic, hout, Option.isSome_map]
        rfl
      rw [hprint, addU32_isSome, hentries, hcount, hgsi]

theorem Has.index_lt (h : io.Has gsi) : io.indexOf gsi < 256 :=
  Nat.lt_of_lt_of_le h.2 (countOf_le _)

theorem Has.entryRegs (h : io.Has gsi) :
    io.entryRegs gsi = some (low (io.indexOf gsi), high (io.indexOf gsi)) :=
  entryRegs_eq h.1 h.index_lt

/-- The registers of two GSIs are four. -/
theorem Has.apart (h : io.Has gsi) (h' : io.Has gsi') (hne : gsi ≠ gsi') :
    [low (io.indexOf gsi), high (io.indexOf gsi), low (io.indexOf gsi'),
      high (io.indexOf gsi')].Nodup := by
  have hindex : io.indexOf gsi ≠ io.indexOf gsi' := by
    intro heq
    have hle := h.1
    have hle' := h'.1
    unfold indexOf at heq
    exact hne (UInt32.toNat_inj.mp (by omega))
  have hlow := (low_inj h.index_lt h'.index_lt).not.mpr hindex
  have hhigh := (high_inj h.index_lt h'.index_lt).not.mpr hindex
  simp [hlow, hhigh, low_ne_high h.index_lt h.index_lt, low_ne_high h.index_lt h'.index_lt,
    low_ne_high h'.index_lt h'.index_lt, (low_ne_high h'.index_lt h.index_lt).symm]

/-- The answers are the integers' exactly when the GSIs end below the top of the 32 bits. -/
theorem coverage_exact_iff (io : IoApic) : io.Exact ↔ io.gsiBase.toNat + io.count < 2 ^ 32 := by
  constructor
  · intro h
    exact (initApic_isSome io).mp h.printed
  · intro hfits
    constructor
    · intro gsi
      rw [covers_answer, if_neg fun h => h.2 hfits]
    · exact (maskAll_isSome io).mpr (Nat.le_of_lt hfits)
    · exact (initApic_isSome io).mpr hfits
    · intro gsi h
      have hlt := h.2
      refine ⟨_, _, h.entryRegs, ?_, ?_⟩
      · rw [toNat_low h.index_lt, indexOf]
        omega
      · rw [toNat_high h.index_lt, indexOf]
        omega
    · intro gsi gsi' h h' hne low high low' high' hregs hregs'
      obtain ⟨rfl, rfl⟩ : _ = low ∧ _ = high := by simpa using h.entryRegs.symm.trans hregs
      obtain ⟨rfl, rfl⟩ : _ = low' ∧ _ = high' := by simpa using h'.entryRegs.symm.trans hregs'
      exact h.apart h' hne

end

/-- Twenty-four entries from a first GSI sixteen below the top. -/
def topmost : IoApic where
  chip := ⟨0, fun index => if index = ioapicRegVersion then 0x00170020 else 0⟩
  gsiBase := 0xFFFFFFF0
  writes := []

theorem topmost_overflows : ¬topmost.Exact ∧ topmost.Has 0xFFFFFFF0 ∧
    (topmost.covers 0xFFFFFFF0).1 = none ∧ topmost.maskAll.1 = none ∧ topmost.initApic.1 = none := by
  have hcovers : (topmost.covers 0xFFFFFFF0).1 = none := by decide +kernel
  refine ⟨fun h => ?_, by decide +kernel, hcovers, by decide +kernel, by decide +kernel⟩
  have hanswer := h.covers 0xFFFFFFF0
  rw [hcovers] at hanswer
  cases hanswer

end IoApic

end StarOs.Arch
