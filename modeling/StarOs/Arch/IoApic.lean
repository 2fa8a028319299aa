import Mathlib.Data.Nat.Bitwise
import Mathlib.Logic.Function.Basic
import Mathlib.Tactic.Common

/-! The I/O APIC: a chip with one register to select by and one to reach the selected register
through, and the driver that programs its redirection entries. Every write of the driver is
kept, with the chip as it stands after it. -/

namespace StarOs.Arch

def ioapicSelect : ℕ := 0x00
def ioapicWindow : ℕ := 0x10

def ioapicRegVersion : UInt32 := 0x01
def ioapicRegRedirect : UInt32 := 0x10

structure Redirection where
  vector : UInt8
  destination : UInt8
  activeLow : Bool
  levelTriggered : Bool
  masked : Bool
  deriving DecidableEq

namespace Redirection

/-- `Redirection::masked()` -/
def blank : Redirection := ⟨0, 0, false, false, true⟩

def lowBits (e : Redirection) : UInt32 :=
  let bits := e.vector.toUInt32
  let bits := if e.activeLow then bits ||| (1 : UInt32) <<< 13 else bits
  let bits := if e.levelTriggered then bits ||| (1 : UInt32) <<< 15 else bits
  if e.masked then bits ||| (1 : UInt32) <<< 16 else bits

def highBits (e : Redirection) : UInt32 := e.destination.toUInt32 <<< 24

def fromBits (low high : UInt32) : Redirection where
  vector := low.toUInt8
  destination := (high >>> 24).toUInt8
  activeLow := low &&& (1 : UInt32) <<< 13 != 0
  levelTriggered := low &&& (1 : UInt32) <<< 15 != 0
  masked := low &&& (1 : UInt32) <<< 16 != 0

end Redirection

/-- What the chip holds: the register selected, and the indirect registers. -/
structure Chip where
  select : UInt32
  regs : UInt32 → UInt32

namespace Chip

/-- `Mmio32::read` -/
def read (c : Chip) (offset : ℕ) : UInt32 :=
  if offset = ioapicSelect then c.select
  else if offset = ioapicWindow then c.regs c.select
  else 0

/-- `Mmio32::write` -/
def write (c : Chip) (offset : ℕ) (value : UInt32) : Chip :=
  if offset = ioapicSelect then { c with select := value }
  else if offset = ioapicWindow then { c with regs := Function.update c.regs c.select value }
  else c

end Chip

/-- A write, and the chip after it. -/
structure Access where
  offset : ℕ
  after : Chip

structure IoApic where
  chip : Chip
  gsiBase : UInt32
  /-- the writes of the call in progress, the first of them first -/
  writes : List Access

namespace IoApic

def write (io : IoApic) (offset : ℕ) (value : UInt32) : IoApic :=
  let chip := io.chip.write offset value
  { io with chip := chip, writes := io.writes ++ [⟨offset, chip⟩] }

def readReg (io : IoApic) (index : UInt32) : UInt32 × IoApic :=
  let io := io.write ioapicSelect index
  (io.chip.read ioapicWindow, io)

def writeReg (io : IoApic) (index value : UInt32) : IoApic :=
  (io.write ioapicSelect index).write ioapicWindow value

def entryCount (io : IoApic) : UInt32 × IoApic :=
  let (version, io) := io.readReg ioapicRegVersion
  (((version >>> 16) &&& 0xFF) + 1, io)

/-- `a + b` and `a - b` of two `u32`, and none where they panic. -/
def addU32 (a b : UInt32) : Option UInt32 :=
  if a.toNat + b.toNat < 2 ^ 32 then some (a + b) else none

def subU32 (a b : UInt32) : Option UInt32 := if b ≤ a then some (a - b) else none

def mulU32 (a b : UInt32) : Option UInt32 :=
  if a.toNat * b.toNat < 2 ^ 32 then some (a * b) else none

/-- Whether `gsi` belongs to this controller; none where the sum overflows. -/
def covers (io : IoApic) (gsi : UInt32) : Option Bool × IoApic :=
  let (count, io) := io.entryCount
  if gsi ≥ io.gsiBase then ((addU32 io.gsiBase count).map fun stop => decide (gsi < stop), io)
  else (some false, io)

def entryRegs (io : IoApic) (gsi : UInt32) : Option (UInt32 × UInt32) := do
  let index ← subU32 gsi io.gsiBase
  let twice ← mulU32 index 2
  let low ← addU32 ioapicRegRedirect twice
  let high ← addU32 low 1
  return (low, high)

/-- `set_redirection`; none where it panics. -/
def setRedirection (io : IoApic) (gsi : UInt32) (entry : Redirection) : Option Unit × IoApic :=
  match io.covers gsi with
  | (some true, io) =>
    match io.entryRegs gsi with
    | some (low, high) => (some (), (io.writeReg high entry.highBits).writeReg low entry.lowBits)
    | none => (none, io)
  | (_, io) => (none, io)

def redirection (io : IoApic) (gsi : UInt32) : Option Redirection × IoApic :=
  match io.covers gsi with
  | (some true, io) =>
    match io.entryRegs gsi with
    | some (low, high) =>
      let (low, io) := io.readReg low
      let (high, io) := io.readReg high
      (some (Redirection.fromBits low high), io)
    | none => (none, io)
  | (_, io) => (none, io)

def setMasked (io : IoApic) (gsi : UInt32) (masked : Bool) : Option Unit × IoApic :=
  match io.redirection gsi with
  | (some entry, io) =>
    match io.entryRegs gsi with
    | some (low, _) => (some (), io.writeReg low { entry with masked := masked }.lowBits)
    | none => (none, io)
  | (none, io) => (none, io)

/-- The loop of `mask_all` over the indices that are left. -/
def maskEntries : List ℕ → IoApic → Option Unit × IoApic
  | [], io => (some (), io)
  | index :: rest, io =>
    match addU32 io.gsiBase (UInt32.ofNat index) with
    | none => (none, io)
    | some gsi =>
      match io.entryRegs gsi with
      | none => (none, io)
      | some (low, high) =>
        maskEntries rest ((io.writeReg high 0).writeReg low Redirection.blank.lowBits)

def maskAll (io : IoApic) : Option Unit × IoApic :=
  let (count, io) := io.entryCount
  maskEntries (List.range count.toNat) io

end IoApic

/-! ### Bits -/

namespace Redirection

theorem and_two_pow_of_lt {x k : ℕ} (h : x < 2 ^ k) : x &&& 2 ^ k = 0 := by
  rw [Nat.and_two_pow, Nat.testBit_lt_two_pow h, Bool.toNat_false, Nat.zero_mul]

/-- A vector has none of the bits above it. -/
theorem vector_and (v : UInt8) :
    v.toUInt32 &&& (1 : UInt32) <<< 13 = 0 ∧ v.toUInt32 &&& (1 : UInt32) <<< 15 = 0 ∧
      v.toUInt32 &&& (1 : UInt32) <<< 16 = 0 := by
  have hv := v.toNat_lt
  refine ⟨?_, ?_, ?_⟩ <;> rw [← UInt32.toNat_inj, UInt32.toNat_and, UInt8.toNat_toUInt32]
  · exact and_two_pow_of_lt (k := 13) (by omega)
  · exact and_two_pow_of_lt (k := 15) (by omega)
  · exact and_two_pow_of_lt (k := 16) (by omega)

/-- The bits of the low half above the vector. -/
def lineBits (activeLow levelTriggered masked : Bool) : UInt32 :=
  (if activeLow then (1 : UInt32) <<< 13 else 0) ||| (if levelTriggered then (1 : UInt32) <<< 15 else 0) |||
    if masked then (1 : UInt32) <<< 16 else 0

theorem lowBits_eq (e : Redirection) :
    e.lowBits = e.vector.toUInt32 ||| lineBits e.activeLow e.levelTriggered e.masked := by
  obtain ⟨v, d, a, l, m⟩ := e
  cases a <;> cases l <;> cases m <;> simp [lowBits, lineBits, UInt32.or_assoc]

/-- Each of them can be read off, and none reaches into the vector. -/
theorem lineBits_and (a l m : Bool) : (lineBits a l m).toUInt8 = 0 ∧
    (lineBits a l m &&& (1 : UInt32) <<< 13 != 0) = a ∧
    (lineBits a l m &&& (1 : UInt32) <<< 15 != 0) = l ∧
    (lineBits a l m &&& (1 : UInt32) <<< 16 != 0) = m := by
  cases a <;> cases l <;> cases m <;> decide

theorem or_and_of_and {x y z : UInt32} (h : x &&& z = 0) : (x ||| y) &&& z = y &&& z := by
  rw [← UInt32.toBitVec_inj, UInt32.toBitVec_and] at *
  rw [UInt32.toBitVec_or, BitVec.and_or_distrib_right, h, UInt32.toBitVec_and]
  exact BitVec.zero_or

/-- The low half carries everything but the destination. -/
theorem fromBits_lowBits (e : Redirection) (high : UInt32) :
    fromBits e.lowBits high = { e with destination := (high >>> 24).toUInt8 } := by
  obtain ⟨h13, h15, h16⟩ := vector_and e.vector
  obtain ⟨hvector, ha, hl, hm⟩ := lineBits_and e.activeLow e.levelTriggered e.masked
  rw [fromBits, lowBits_eq, or_and_of_and h13, or_and_of_and h15, or_and_of_and h16, ha, hl, hm,
    UInt32.toUInt8_or, hvector, UInt8.toUInt8_toUInt32, UInt8.or_zero]

theorem highBits_destination (e : Redirection) : (e.highBits >>> 24).toUInt8 = e.destination := by
  have hd := e.destination.toNat_lt
  rw [← UInt8.toNat_inj, UInt32.toNat_toUInt8, UInt32.toNat_shiftRight, highBits,
    UInt32.toNat_shiftLeft, UInt8.toNat_toUInt32, show (24 : UInt32).toNat % 32 = 24 from rfl,
    Nat.shiftLeft_eq, Nat.shiftRight_eq_div_pow]
  omega

/-- The two halves of an entry decode to it. -/
theorem fromBits_bits (e : Redirection) : fromBits e.lowBits e.highBits = e := by
  rw [fromBits_lowBits, highBits_destination]

end Redirection

/-! ### Entries -/

/-- The registers of the entry at `i`. -/
def low (i : ℕ) : UInt32 := UInt32.ofNat (0x10 + 2 * i)

def high (i : ℕ) : UInt32 := UInt32.ofNat (0x11 + 2 * i)

/-- What these registers hold for the entry at `i`. -/
def entryOf (regs : UInt32 → UInt32) (i : ℕ) : Redirection :=
  Redirection.fromBits (regs (low i)) (regs (high i))

/-- How many entries the chip says it has. -/
def countOf (regs : UInt32 → UInt32) : ℕ := ((regs ioapicRegVersion >>> 16) &&& 0xFF).toNat + 1

section

variable {regs : UInt32 → UInt32} {i j : ℕ}

theorem countOf_le (regs : UInt32 → UInt32) : countOf regs ≤ 256 := by
  have h := Nat.and_le_right (n := (regs ioapicRegVersion >>> 16).toNat) (m := 0xFF)
  rw [countOf, UInt32.toNat_and]
  exact Nat.succ_le_succ h

theorem toNat_low (hi : i < 256) : (low i).toNat = 0x10 + 2 * i :=
  UInt32.toNat_ofNat_of_lt' (by rw [UInt32.size]; omega)

theorem toNat_high (hi : i < 256) : (high i).toNat = 0x11 + 2 * i :=
  UInt32.toNat_ofNat_of_lt' (by rw [UInt32.size]; omega)

theorem low_ne_high (hi : i < 256) (hj : j < 256) : low i ≠ high j := by
  rw [ne_eq, ← UInt32.toNat_inj, toNat_low hi, toNat_high hj]
  omega

theorem low_inj (hi : i < 256) (hj : j < 256) : low i = low j ↔ i = j := by
  rw [← UInt32.toNat_inj, toNat_low hi, toNat_low hj]
  omega

theorem high_inj (hi : i < 256) (hj : j < 256) : high i = high j ↔ i = j := by
  rw [← UInt32.toNat_inj, toNat_high hi, toNat_high hj]
  omega

theorem version_ne_low (hi : i < 256) : ioapicRegVersion ≠ low i := by
  rw [ne_eq, ← UInt32.toNat_inj, toNat_low hi, show ioapicRegVersion.toNat = 1 from rfl]
  omega

theorem version_ne_high (hi : i < 256) : ioapicRegVersion ≠ high i := by
  rw [ne_eq, ← UInt32.toNat_inj, toNat_high hi, show ioapicRegVersion.toNat = 1 from rfl]
  omega

/-- Writing the high half changes where the entry goes to, and nothing else. -/
theorem entryOf_update_high (hi : i < 256) (hj : j < 256) (value : UInt32) :
    entryOf (Function.update regs (high j) value) i =
      if i = j then { entryOf regs i with destination := (value >>> 24).toUInt8 } else entryOf regs i := by
  unfold entryOf
  rw [Function.update_of_ne (low_ne_high hi hj)]
  by_cases h : i = j
  · rw [if_pos h, h, Function.update_self]
    rfl
  · rw [if_neg h, Function.update_of_ne (mt (high_inj hi hj).mp h)]

/-- Writing the low half changes all the rest of it. -/
theorem entryOf_update_low (hi : i < 256) (hj : j < 256) (e : Redirection) :
    entryOf (Function.update regs (low j) e.lowBits) i =
      if i = j then { e with destination := (entryOf regs i).destination } else entryOf regs i := by
  unfold entryOf
  rw [Function.update_of_ne (low_ne_high hj hi).symm]
  by_cases h : i = j
  · rw [if_pos h, h, Function.update_self, Redirection.fromBits_lowBits]
    rfl
  · rw [if_neg h, Function.update_of_ne (mt (low_inj hi hj).mp h)]

theorem countOf_update (hj : j < 256) (value : UInt32) :
    countOf (Function.update regs (high j) value) = countOf regs ∧
      countOf (Function.update regs (low j) value) = countOf regs := by
  unfold countOf
  rw [Function.update_of_ne (version_ne_high hj), Function.update_of_ne (version_ne_low hj)]
  exact ⟨rfl, rfl⟩

end

namespace IoApic

/-- What the registers held after each write of the call, and which of them it wrote. -/
def images (io : IoApic) : List (UInt32 → UInt32) := io.writes.map (·.after.regs)

def written (io : IoApic) : List UInt32 :=
  (io.writes.filter (·.offset = ioapicWindow)).map (·.after.select)

def count (io : IoApic) : ℕ := countOf io.chip.regs

/-- The GSI is one of this controller's, and the sum that tells does not overflow. -/
structure Covered (io : IoApic) (gsi : UInt32) : Prop where
  ge : io.gsiBase.toNat ≤ gsi.toNat
  lt : gsi.toNat < io.gsiBase.toNat + io.count
  fits : io.gsiBase.toNat + io.count < 2 ^ 32

/-- Its index in this controller. -/
def indexOf (io : IoApic) (gsi : UInt32) : ℕ := gsi.toNat - io.gsiBase.toNat

/-- The driver once it has selected `index`. -/
def selecting (io : IoApic) (index : UInt32) : IoApic := io.write ioapicSelect index

section

variable {io : IoApic} {gsi index value : UInt32} {entry : Redirection}

@[simp] theorem selecting_regs : (io.selecting index).chip.regs = io.chip.regs := rfl

@[simp] theorem selecting_gsiBase : (io.selecting index).gsiBase = io.gsiBase := rfl

@[simp] theorem selecting_images : (io.selecting index).images = io.images ++ [io.chip.regs] := by
  rw [images, selecting, write, List.map_append]
  rfl

@[simp] theorem selecting_written : (io.selecting index).written = io.written := by
  rw [written, selecting, write, List.filter_append, List.map_append]
  exact List.append_nil _

@[simp] theorem writeReg_regs :
    (io.writeReg index value).chip.regs = Function.update io.chip.regs index value := rfl

@[simp] theorem writeReg_gsiBase : (io.writeReg index value).gsiBase = io.gsiBase := rfl

@[simp] theorem writeReg_images : (io.writeReg index value).images =
    io.images ++ [io.chip.regs, Function.update io.chip.regs index value] := by
  rw [images, writeReg, write, write, List.map_append, List.map_append, List.append_assoc]
  rfl

@[simp] theorem writeReg_written : (io.writeReg index value).written = io.written ++ [index] := by
  rw [written, writeReg, write, write, List.filter_append, List.filter_append, List.map_append,
    List.map_append, List.append_assoc]
  rfl

theorem readReg_eq : io.readReg index = (io.chip.regs index, io.selecting index) := rfl

theorem entryCount_eq : (io.entryCount).1.toNat = io.count ∧
    (io.entryCount).2 = io.selecting ioapicRegVersion := by
  refine ⟨?_, rfl⟩
  have hcount := countOf_le io.chip.regs
  have hvalue : (io.entryCount).1 = ((io.chip.regs ioapicRegVersion >>> 16) &&& 0xFF) + 1 := rfl
  unfold countOf at hcount
  rw [hvalue, UInt32.toNat_add, count, countOf]
  exact Nat.mod_eq_of_lt (by rw [show (1 : UInt32).toNat = 1 from rfl]; omega)

theorem covers_ite : io.covers gsi = if gsi ≥ io.gsiBase then
    ((addU32 io.gsiBase io.entryCount.1).map fun stop => decide (gsi < stop),
      io.selecting ioapicRegVersion)
    else (some false, io.selecting ioapicRegVersion) := rfl

/-- What `covers` finds. -/
theorem covers_eq : (io.covers gsi).2 = io.selecting ioapicRegVersion ∧
    ((io.covers gsi).1 = some true ↔ io.Covered gsi) := by
  obtain ⟨hcount, -⟩ : (io.entryCount).1.toNat = io.count ∧ _ := entryCount_eq
  rw [covers_ite]
  by_cases hge : io.gsiBase ≤ gsi
  · have hle := UInt32.le_iff_toNat_le.mp hge
    rw [if_pos hge, addU32, hcount]
    refine ⟨rfl, ?_⟩
    by_cases hfits : io.gsiBase.toNat + io.count < 2 ^ 32
    · have hstop : (io.gsiBase + io.entryCount.1).toNat = io.gsiBase.toNat + io.count := by
        rw [UInt32.toNat_add, hcount, Nat.mod_eq_of_lt hfits]
      rw [if_pos hfits, Option.map_some, Option.some.injEq, decide_eq_true_eq,
        UInt32.lt_iff_toNat_lt, hstop]
      exact ⟨fun hlt => ⟨hle, hlt, hfits⟩, Covered.lt⟩
    · rw [if_neg hfits]
      exact ⟨fun h => absurd h (by simp), fun h => absurd h.fits hfits⟩
  · rw [if_neg hge]
    refine ⟨rfl, ⟨fun h => absurd h (by simp), fun h => ?_⟩⟩
    exact absurd (UInt32.le_iff_toNat_le.mpr h.ge) hge

theorem Covered.index_lt (h : io.Covered gsi) : io.indexOf gsi < io.count := by
  have := h.ge
  have := h.lt
  unfold indexOf
  omega

theorem Covered.index_lt_256 (h : io.Covered gsi) : io.indexOf gsi < 256 :=
  Nat.lt_of_lt_of_le h.index_lt (countOf_le _)

/-- The registers of an index the chip can have. -/
theorem entryRegs_eq (hge : io.gsiBase.toNat ≤ gsi.toNat) (hi : io.indexOf gsi < 256) :
    io.entryRegs gsi = some (low (io.indexOf gsi), high (io.indexOf gsi)) := by
  have hbase : io.gsiBase ≤ gsi := UInt32.le_iff_toNat_le.mpr hge
  have hindex : (gsi - io.gsiBase).toNat = io.indexOf gsi := UInt32.toNat_sub_of_le _ _ hbase
  have hone : (1 : UInt32).toNat = 1 := rfl
  have htwo : (2 : UInt32).toNat = 2 := rfl
  have hfirst : ioapicRegRedirect.toNat = 0x10 := rfl
  have hmul : ((gsi - io.gsiBase) * 2).toNat = io.indexOf gsi * 2 := by
    rw [UInt32.toNat_mul, hindex, htwo, Nat.mod_eq_of_lt (by omega)]
  have hlow : ioapicRegRedirect + (gsi - io.gsiBase) * 2 = low (io.indexOf gsi) := by
    rw [← UInt32.toNat_inj, UInt32.toNat_add, hmul, hfirst, toNat_low hi]
    omega
  have hhigh : low (io.indexOf gsi) + 1 = high (io.indexOf gsi) := by
    rw [← UInt32.toNat_inj, UInt32.toNat_add, toNat_low hi, toNat_high hi, hone]
    omega
  have hmulU : mulU32 (gsi - io.gsiBase) 2 = some ((gsi - io.gsiBase) * 2) :=
    if_pos (by rw [hindex, htwo]; omega)
  have haddU : addU32 ioapicRegRedirect ((gsi - io.gsiBase) * 2) = some (low (io.indexOf gsi)) := by
    rw [addU32, if_pos (by rw [hmul, hfirst]; omega), hlow]
  have haddU' : addU32 (low (io.indexOf gsi)) 1 = some (high (io.indexOf gsi)) := by
    rw [addU32, if_pos (by rw [toNat_low hi, hone]; omega), hhigh]
  simp only [entryRegs, subU32, if_pos hbase, Option.bind_eq_bind, Option.bind_some, hmulU, haddU,
    haddU', pure]

/-! ### What each call does -/

theorem covers_of (h : io.Covered gsi) :
    io.covers gsi = (some true, io.selecting ioapicRegVersion) := by
  obtain ⟨hio, hcovers⟩ : (io.covers gsi).2 = io.selecting ioapicRegVersion ∧ _ := covers_eq
  exact Prod.ext (hcovers.mpr h) hio

theorem covers_of_not (h : ¬io.Covered gsi) :
    io.covers gsi = (none, io.selecting ioapicRegVersion) ∨
      io.covers gsi = (some false, io.selecting ioapicRegVersion) := by
  obtain ⟨hio, hcovers⟩ : (io.covers gsi).2 = io.selecting ioapicRegVersion ∧ _ := covers_eq
  cases ho : (io.covers gsi).1 with
  | none => exact .inl (Prod.ext ho hio)
  | some b =>
    cases b with
    | false => exact .inr (Prod.ext ho hio)
    | true => exact absurd (hcovers.mp ho) h

/-- `set_redirection` on a GSI of this controller. -/
theorem setRedirection_eq (h : io.Covered gsi) : io.setRedirection gsi entry = (some (),
    ((io.selecting ioapicRegVersion).writeReg (high (io.indexOf gsi)) entry.highBits).writeReg
      (low (io.indexOf gsi)) entry.lowBits) := by
  have hregs : (io.selecting ioapicRegVersion).entryRegs gsi =
      some (low (io.indexOf gsi), high (io.indexOf gsi)) := entryRegs_eq h.ge h.index_lt_256
  simp only [setRedirection, covers_of h, hregs]

/-- On any other it writes no entry. -/
theorem setRedirection_not (h : ¬io.Covered gsi) :
    io.setRedirection gsi entry = (none, io.selecting ioapicRegVersion) := by
  obtain hpair | hpair := covers_of_not h
  · simp only [setRedirection, hpair]
  · simp only [setRedirection, hpair]

theorem redirection_eq (h : io.Covered gsi) : io.redirection gsi =
    (some (entryOf io.chip.regs (io.indexOf gsi)),
      ((io.selecting ioapicRegVersion).selecting (low (io.indexOf gsi))).selecting
        (high (io.indexOf gsi))) := by
  have hregs : (io.selecting ioapicRegVersion).entryRegs gsi =
      some (low (io.indexOf gsi), high (io.indexOf gsi)) := entryRegs_eq h.ge h.index_lt_256
  simp only [redirection, covers_of h, hregs, readReg_eq]
  rfl

theorem redirection_not (h : ¬io.Covered gsi) :
    io.redirection gsi = (none, io.selecting ioapicRegVersion) := by
  obtain hpair | hpair := covers_of_not h
  · simp only [redirection, hpair]
  · simp only [redirection, hpair]

theorem setMasked_eq (h : io.Covered gsi) (masked : Bool) : io.setMasked gsi masked = (some (),
    (((io.selecting ioapicRegVersion).selecting (low (io.indexOf gsi))).selecting
      (high (io.indexOf gsi))).writeReg (low (io.indexOf gsi))
        { entryOf io.chip.regs (io.indexOf gsi) with masked := masked }.lowBits) := by
  have hregs : (((io.selecting ioapicRegVersion).selecting (low (io.indexOf gsi))).selecting
      (high (io.indexOf gsi))).entryRegs gsi = some (low (io.indexOf gsi), high (io.indexOf gsi)) :=
    entryRegs_eq h.ge h.index_lt_256
  simp only [setMasked, redirection_eq h, hregs]

theorem setMasked_not (h : ¬io.Covered gsi) (masked : Bool) :
    io.setMasked gsi masked = (none, io.selecting ioapicRegVersion) := by
  simp only [setMasked, redirection_not h]

/-- The registers once `mask_all` is through with the first entries. -/
def blanked (regs : UInt32 → UInt32) : ℕ → UInt32 → UInt32
  | 0 => regs
  | k + 1 => Function.update (Function.update (blanked regs k) (high k) 0) (low k) Redirection.blank.lowBits

/-- What they are after each of its four writes to the entry at `k`. -/
def blanking (regs : UInt32 → UInt32) (k : ℕ) : List (UInt32 → UInt32) :=
  [blanked regs k, Function.update (blanked regs k) (high k) 0,
    Function.update (blanked regs k) (high k) 0, blanked regs (k + 1)]

theorem entryOf_blanked {regs : UInt32 → UInt32} {i k : ℕ} (hi : i < 256) (hk : k ≤ 256) :
    entryOf (blanked regs k) i = if i < k then Redirection.blank else entryOf regs i := by
  induction k with
  | zero => rfl
  | succ k ih =>
    rw [blanked, entryOf_update_low hi hk, entryOf_update_high hi hk, ih (Nat.le_of_lt hk)]
    by_cases heq : i = k
    · rw [if_pos heq, if_pos heq, if_pos (show i < k + 1 by omega)]
      rfl
    · rw [if_neg heq, if_neg heq]
      exact if_congr (by omega) rfl rfl

theorem countOf_blanked {regs : UInt32 → UInt32} {k : ℕ} (hk : k ≤ 256) :
    countOf (blanked regs k) = countOf regs := by
  induction k with
  | zero => rfl
  | succ k ih => rw [blanked, (countOf_update hk _).2, (countOf_update hk _).1, ih (Nat.le_of_lt hk)]

/-- How many entries `mask_all` gets to: all of them, unless their GSIs overflow. -/
def reach (io : IoApic) : ℕ := min io.count (2 ^ 32 - io.gsiBase.toNat)

/-- The loop from the entry at `k` on, once those before it are masked. -/
theorem maskEntries_spec {regs : UInt32 → UInt32} {k n : ℕ} (hk : k + n ≤ 256)
    (hregs : io.chip.regs = blanked regs k) :
    ∃ m io', m = min n (2 ^ 32 - io.gsiBase.toNat - k) ∧
      maskEntries (List.range' k n) io = (if m = n then some () else none, io') ∧
      io'.chip.regs = blanked regs (k + m) ∧ io'.gsiBase = io.gsiBase ∧
      io'.images = io.images ++ (List.range' k m).flatMap (blanking regs) ∧
      io'.written = io.written ++ (List.range' k m).flatMap fun i => [high i, low i] := by
  induction n generalizing k io with
  | zero => exact ⟨0, io, by omega, rfl, hregs, rfl, by simp, by simp⟩
  | succ n ih =>
    have hbase := io.gsiBase.toNat_lt
    have hindex : (UInt32.ofNat k).toNat = k := UInt32.toNat_ofNat_of_lt' (by rw [UInt32.size]; omega)
    rw [List.range'_succ, maskEntries, addU32, hindex]
    by_cases hfits : io.gsiBase.toNat + k < 2 ^ 32
    · have hgsi : (io.gsiBase + UInt32.ofNat k).toNat = io.gsiBase.toNat + k := by
        rw [UInt32.toNat_add, hindex, Nat.mod_eq_of_lt hfits]
      have hat : io.indexOf (io.gsiBase + UInt32.ofNat k) = k := by
        rw [indexOf, hgsi, Nat.add_sub_cancel_left]
      have hentry : io.entryRegs (io.gsiBase + UInt32.ofNat k) = some (low k, high k) := by
        rw [entryRegs_eq (by omega) (by omega), hat]
      have hnext : ((io.writeReg (high k) 0).writeReg (low k) Redirection.blank.lowBits).chip.regs =
          blanked regs (k + 1) := by
        rw [writeReg_regs, writeReg_regs, hregs]
        rfl
      obtain ⟨m, io', hm, hrun, hregs', hgsi', himages, hwritten⟩ := ih (by omega) hnext
      rw [writeReg_gsiBase, writeReg_gsiBase] at hm hgsi'
      rw [if_pos hfits]
      dsimp only
      rw [hentry]
      refine ⟨m + 1, io', by omega, ?_, ?_, hgsi', ?_, ?_⟩
      · dsimp only
        rw [hrun]
        exact congrArg (·, io') (if_congr (by omega) rfl rfl)
      · rw [hregs', Nat.add_assoc, Nat.add_comm 1 m]
      · rw [himages, writeReg_images, writeReg_images, writeReg_regs, hregs, List.range'_succ,
          List.flatMap_cons, List.append_assoc, List.append_assoc]
        rfl
      · rw [hwritten, writeReg_written, writeReg_written, List.range'_succ, List.flatMap_cons,
          List.append_assoc, List.append_assoc]
        rfl
    · rw [if_neg hfits]
      exact ⟨0, io, by omega, rfl, hregs, rfl, by simp, by simp⟩

/-- `mask_all` from whatever the firmware left. -/
theorem maskAll_spec (io : IoApic) : ∃ io',
    io.maskAll = (if io.reach = io.count then some () else none, io') ∧
      io'.chip.regs = blanked io.chip.regs io.reach ∧ io'.gsiBase = io.gsiBase ∧
      io'.images = io.images ++ io.chip.regs :: (List.range io.reach).flatMap (blanking io.chip.regs) ∧
      io'.written = io.written ++ (List.range io.reach).flatMap fun i => [high i, low i] := by
  obtain ⟨hcount, hio⟩ : (io.entryCount).1.toNat = io.count ∧ _ := entryCount_eq
  have hle : 0 + io.count ≤ 256 := by
    rw [Nat.zero_add]
    exact countOf_le _
  have hstart : (io.selecting ioapicRegVersion).chip.regs = blanked io.chip.regs 0 := rfl
  obtain ⟨m, io', hm, hrun, hregs, hgsi, himages, hwritten⟩ := maskEntries_spec hle hstart
  rw [selecting_gsiBase, Nat.sub_zero] at hm
  obtain rfl : m = io.reach := hm
  have hmask : io.maskAll = maskEntries (List.range io.entryCount.1.toNat) io.entryCount.2 := rfl
  refine ⟨io', ?_, ?_, hgsi, ?_, ?_⟩
  · rw [hmask, hcount, hio, List.range_eq_range', hrun]
  · rw [hregs, Nat.zero_add]
  · rw [himages, selecting_images, List.append_assoc, List.range_eq_range']
    rfl
  · rw [hwritten, selecting_written, List.range_eq_range']

end

end IoApic

end StarOs.Arch
