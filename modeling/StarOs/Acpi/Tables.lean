import StarOs.Library.Slice

/-! The ACPI table parsers. Every multi-byte read goes through byte assembly; direct
indexing, slicing and the additions on offsets fault where the source would panic. -/

namespace StarOs.Acpi

open Library

/-- `u16::from_le_bytes`. -/
def le16 (b₀ b₁ : UInt8) : UInt16 := b₀.toUInt16 ||| b₁.toUInt16 <<< 8

/-- `u32::from_le_bytes`. -/
def le32 (b₀ b₁ b₂ b₃ : UInt8) : UInt32 :=
  b₀.toUInt32 ||| b₁.toUInt32 <<< 8 ||| b₂.toUInt32 <<< 16 ||| b₃.toUInt32 <<< 24

/-- `u64::from_le_bytes`. -/
def le64 (b₀ b₁ b₂ b₃ b₄ b₅ b₆ b₇ : UInt8) : UInt64 :=
  (le32 b₀ b₁ b₂ b₃).toUInt64 ||| (le32 b₄ b₅ b₆ b₇).toUInt64 <<< 32

/-- "RSD PTR ". -/
def rsdpSignature : List UInt8 := [0x52, 0x53, 0x44, 0x20, 0x50, 0x54, 0x52, 0x20]

def rsdpV1Len : ℕ := 20

def rsdpV2Len : ℕ := 36

def sdtHeaderLen : ℕ := 36

/-- The signatures "XSDT", "RSDT", "APIC", "MCFG" and "HPET". -/
def xsdtSignature : List UInt8 := [0x58, 0x53, 0x44, 0x54]

def rsdtSignature : List UInt8 := [0x52, 0x53, 0x44, 0x54]

def apicSignature : List UInt8 := [0x41, 0x50, 0x49, 0x43]

def mcfgSignature : List UInt8 := [0x4D, 0x43, 0x46, 0x47]

def hpetSignature : List UInt8 := [0x48, 0x50, 0x45, 0x54]

def u32At (buf : Slice) (off : ℕ) : Checked (Option UInt32) := do
  let stop ← add off 4
  match buf.get off stop with
  | none => .ok none
  | some b => do
    let b₀ ← b.index 0
    let b₁ ← b.index 1
    let b₂ ← b.index 2
    let b₃ ← b.index 3
    .ok (some (le32 b₀ b₁ b₂ b₃))

def u64At (buf : Slice) (off : ℕ) : Checked (Option UInt64) := do
  let stop ← add off 8
  match buf.get off stop with
  | none => .ok none
  | some b => do
    let b₀ ← b.index 0
    let b₁ ← b.index 1
    let b₂ ← b.index 2
    let b₃ ← b.index 3
    let b₄ ← b.index 4
    let b₅ ← b.index 5
    let b₆ ← b.index 6
    let b₇ ← b.index 7
    .ok (some (le64 b₀ b₁ b₂ b₃ b₄ b₅ b₆ b₇))

/-- The bytes sum to zero, wrapping. -/
def checksumOk (bytes : Slice) : Bool := bytes.bytes.foldl (· + ·) 0 == 0

structure Rsdp where
  revision : UInt8
  rsdt : UInt32
  xsdt : UInt64
  oemId : List UInt8
  deriving DecidableEq

/-- The XSDT address of a revision-2 structure, whose extended checksum covers the
length it declares. -/
def Rsdp.parseExtended (buf : Slice) : Checked (Option UInt64) := do
  if buf.length < rsdpV2Len then
    .ok none
  else
    match ← u32At buf 20 with
    | none => .ok none
    | some len =>
      if rsdpV2Len ≤ len.toNat ∧ len.toNat ≤ buf.length then do
        if checksumOk (← buf.range 0 len.toNat) then u64At buf 24 else .ok none
      else .ok none

def Rsdp.parse (buf : Slice) : Checked (Option Rsdp) := do
  if buf.length < rsdpV1Len then .ok none
  else if (← buf.range 0 8).bytes ≠ rsdpSignature then .ok none
  else if !checksumOk (← buf.range 0 rsdpV1Len) then .ok none
  else do
    let revision ← buf.index 15
    match ← u32At buf 16 with
    | none => .ok none
    | some rsdt => do
      let oemId ← buf.range 9 15
      let xsdt ← if revision ≥ 2 then Rsdp.parseExtended buf else .ok (some 0)
      match xsdt with
      | none => .ok none
      | some xsdt => .ok (some ⟨revision, rsdt, xsdt, oemId.bytes⟩)

structure SdtHeader where
  signature : List UInt8
  length : UInt32
  revision : UInt8
  oemTableId : List UInt8
  deriving DecidableEq

/-- A header whose whole table has been checksummed. -/
def SdtHeader.parse (buf : Slice) : Checked (Option SdtHeader) := do
  if buf.length < sdtHeaderLen then .ok none
  else
    match ← u32At buf 4 with
    | none => .ok none
    | some length =>
      if length.toNat < sdtHeaderLen ∨ length.toNat > buf.length then .ok none
      else if !checksumOk (← buf.range 0 length.toNat) then .ok none
      else do
        let signature ← buf.range 0 4
        let oemTableId ← buf.range 16 24
        let revision ← buf.index 8
        .ok (some ⟨signature.bytes, length, revision, oemTableId.bytes⟩)

/-- The XSDT or the RSDT: the addresses of the other tables. -/
structure Directory where
  entries : Slice
  width : ℕ

namespace Directory

def parse (buf : Slice) (width : ℕ) : Checked (Option Directory) := do
  match ← SdtHeader.parse buf with
  | none => .ok none
  | some header =>
    let expected := if width = 8 then xsdtSignature else rsdtSignature
    if header.signature ≠ expected then .ok none
    else
      match buf.get sdtHeaderLen header.length.toNat with
      | none => .ok none
      | some entries => .ok (some ⟨entries, width⟩)

def len (d : Directory) : Checked ℕ := div d.entries.length d.width

def entry (d : Directory) (i : ℕ) : Checked (Option UInt64) :=
  match checkedMul i d.width with
  | none => .ok none
  | some off =>
    if d.width = 8 then u64At d.entries off
    else do
      let word ← u32At d.entries off
      .ok (word.map UInt32.toUInt64)

def iter (d : Directory) : Checked (List UInt64) := do
  let n ← d.len
  filterMapRange n d.entry

end Directory

/-- One entry of the MADT. -/
inductive MadtEntry where
  | localApic (acpiId apicId : UInt8) (enabled : Bool)
  | ioApic (id : UInt8) (address gsiBase : UInt32)
  | interruptOverride (bus sourceIrq : UInt8) (gsi : UInt32) (flags : UInt16)
  | localApicNmi (acpiId : UInt8) (flags : UInt16) (lint : UInt8)
  | localX2Apic (apicId acpiId : UInt32) (enabled : Bool)
  | other (entryType : UInt8)
  deriving DecidableEq

/-- The iterator over MADT entries. -/
structure MadtIter where
  body : Slice
  off : ℕ

namespace MadtIter

/-- The entry in `e`, `len` bytes long. -/
def decode (entryType : UInt8) (len : ℕ) (e : Slice) : Checked (Option MadtEntry) := do
  if entryType = 0 ∧ len ≥ 8 then
    let acpiId ← e.index 2
    let apicId ← e.index 3
    match ← u32At e 4 with
    | none => .ok none
    | some flags => .ok (some (.localApic acpiId apicId (flags &&& 1 != 0)))
  else if entryType = 1 ∧ len ≥ 12 then
    let id ← e.index 2
    match ← u32At e 4 with
    | none => .ok none
    | some address =>
      match ← u32At e 8 with
      | none => .ok none
      | some gsiBase => .ok (some (.ioApic id address gsiBase))
  else if entryType = 2 ∧ len ≥ 10 then
    let bus ← e.index 2
    let sourceIrq ← e.index 3
    match ← u32At e 4 with
    | none => .ok none
    | some gsi => do
      let f₀ ← e.index 8
      let f₁ ← e.index 9
      .ok (some (.interruptOverride bus sourceIrq gsi (le16 f₀ f₁)))
  else if entryType = 4 ∧ len ≥ 6 then
    let acpiId ← e.index 2
    let f₀ ← e.index 3
    let f₁ ← e.index 4
    let lint ← e.index 5
    .ok (some (.localApicNmi acpiId (le16 f₀ f₁) lint))
  else if entryType = 9 ∧ len ≥ 16 then
    match ← u32At e 4 with
    | none => .ok none
    | some apicId =>
      match ← u32At e 12 with
      | none => .ok none
      | some acpiId =>
        match ← u32At e 8 with
        | none => .ok none
        | some flags => .ok (some (.localX2Apic apicId acpiId (flags &&& 1 != 0)))
  else .ok (some (.other entryType))

/-- `MadtIter::next`: the entry, and the iterator after it. -/
def next (it : MadtIter) : Checked (Option (MadtEntry × MadtIter)) :=
  match it.body.getByte it.off with
  | none => .ok none
  | some entryType => do
    let second ← add it.off 1
    match it.body.getByte second with
    | none => .ok none
    | some lenByte =>
      let len := lenByte.toNat
      if len < 2 then .ok none
      else do
        let stop ← add it.off len
        if stop > it.body.length then .ok none
        else do
          let e ← it.body.range it.off stop
          let off ← add it.off len
          match ← decode entryType len e with
          | none => .ok none
          | some entry => .ok (some (entry, { it with off := off }))

/-- `for e in it`, for as many turns as it takes, up to `turns`. -/
def forIn {σ : Type} : (turns : ℕ) → MadtIter → σ → (MadtEntry → σ → Checked (ForInStep σ)) →
    Checked σ
  | 0, _, _, _ => .error .unfinished
  | turns + 1, it, s, body => do
    match ← it.next with
    | none => .ok s
    | some (e, it) =>
      match ← body e s with
      | .done s => .ok s
      | .yield s => forIn turns it s body

/-- `it.find_map(f)`. -/
def findMap {α : Type} (turns : ℕ) (it : MadtIter) (f : MadtEntry → Option α) :
    Checked (Option α) :=
  it.forIn turns none fun e r =>
    match f e with
    | some a => .ok (.done (some a))
    | none => .ok (.yield r)

end MadtIter

structure Madt where
  body : Slice
  localApicAddress : UInt32
  hasLegacyPics : Bool

namespace Madt

def parse (buf : Slice) : Checked (Option Madt) := do
  match ← SdtHeader.parse buf with
  | none => .ok none
  | some header =>
    if header.signature ≠ apicSignature then .ok none
    else
      match ← u32At buf 36 with
      | none => .ok none
      | some localApicAddress =>
        match ← u32At buf 40 with
        | none => .ok none
        | some flags =>
          match buf.get 44 header.length.toNat with
          | none => .ok none
          | some body => .ok (some ⟨body, localApicAddress, flags &&& 1 != 0⟩)

/-- The iterator `entries` starts. -/
def entries (m : Madt) : MadtIter := ⟨m.body, 0⟩

/-- Every entry, in order. -/
def walk (turns : ℕ) (m : Madt) : Checked (List MadtEntry) :=
  m.entries.forIn turns [] fun e l => .ok (.yield (l ++ [e]))

/-- The APIC id of an enabled CPU. -/
def enabledId : MadtEntry → Option UInt32
  | .localApic _ apicId true => some apicId.toUInt32
  | .localX2Apic apicId _ true => some apicId
  | _ => none

/-- The APIC ids written into `out`, and how many were found. -/
def cpus (turns : ℕ) (m : Madt) (out : List UInt32) : Checked (ℕ × List UInt32) :=
  m.entries.forIn turns (0, out) fun e (n, out) =>
    match enabledId e with
    | none => .ok (.yield (n, out))
    | some id => do
      let out := if n < out.length then out.set n id else out
      let n ← add n 1
      .ok (.yield (n, out))

def ioApicOf : MadtEntry → Option (UInt32 × UInt32)
  | .ioApic _ address gsiBase => some (address, gsiBase)
  | _ => none

def firstIoApic (turns : ℕ) (m : Madt) : Checked (Option (UInt32 × UInt32)) :=
  m.entries.findMap turns ioApicOf

def overrideOf (irq : UInt8) : MadtEntry → Option UInt32
  | .interruptOverride _ sourceIrq gsi _ => if sourceIrq = irq then some gsi else none
  | _ => none

def gsiForIrq (turns : ℕ) (m : Madt) (irq : UInt8) : Checked UInt32 := do
  let found ← m.entries.findMap turns (overrideOf irq)
  .ok (found.getD irq.toUInt32)

end Madt

/-- One PCIe configuration window. -/
structure EcamWindow where
  base : UInt64
  segment : UInt16
  busStart : UInt8
  busEnd : UInt8
  deriving DecidableEq

structure Mcfg where
  body : Slice

namespace Mcfg

def parse (buf : Slice) : Checked (Option Mcfg) := do
  match ← SdtHeader.parse buf with
  | none => .ok none
  | some header =>
    if header.signature ≠ mcfgSignature then .ok none
    else
      match buf.get 44 header.length.toNat with
      | none => .ok none
      | some body => .ok (some ⟨body⟩)

/-- The `i`-th window. -/
def window (m : Mcfg) (i : ℕ) : Checked (Option EcamWindow) := do
  let start ← mul i 16
  let stop ← add start 16
  match m.body.get start stop with
  | none => .ok none
  | some e =>
    match ← u64At e 0 with
    | none => .ok none
    | some base => do
      let s₀ ← e.index 8
      let s₁ ← e.index 9
      let busStart ← e.index 10
      let busEnd ← e.index 11
      .ok (some ⟨base, le16 s₀ s₁, busStart, busEnd⟩)

def windows (m : Mcfg) : Checked (List EcamWindow) := do
  let n ← div m.body.length 16
  filterMapRange n m.window

end Mcfg

structure Hpet where
  address : UInt64
  number : UInt8
  minTick : UInt16
  deriving DecidableEq

def Hpet.parse (buf : Slice) : Checked (Option Hpet) := do
  match ← SdtHeader.parse buf with
  | none => .ok none
  | some header =>
    if header.signature ≠ hpetSignature ∨ header.length.toNat < 56 then .ok none
    else
      match ← u64At buf 44 with
      | none => .ok none
      | some address => do
        let number ← buf.index 52
        let t₀ ← buf.index 53
        let t₁ ← buf.index 54
        .ok (some ⟨address, number, le16 t₀ t₁⟩)

end StarOs.Acpi
