import StarOs.Library.Slice

/-! The ELF64 program-header parser: header validation and the walk of the `PT_LOAD`
segments. Offsets are machine words; the additions the source checks are checked here. -/

namespace StarOs.Elf64

open Library

def ptLoad : UInt32 := 1
def emX86_64 : UInt16 := 62
def etExec : UInt16 := 2

def pfX : UInt32 := 1
def pfW : UInt32 := 2
def pfR : UInt32 := 4

inductive ElfError where
  | notElf | notElf64 | notLittleEndian | wrongMachine | wrongType | truncatedHeader
  | truncatedProgramHeaders | segmentOutOfImage | fileLargerThanMemory | unalignedSegment
  | noLoadableSegments | spanOverflow
  deriving DecidableEq

def ElfError.asStr : ElfError → String
  | notElf => "not an ELF file"
  | notElf64 => "not ELF64 (32-bit image?)"
  | notLittleEndian => "not little-endian"
  | wrongMachine => "wrong machine (not x86-64 — aarch64 kernel on this ESP?)"
  | wrongType => "not ET_EXEC (position-independent image?)"
  | truncatedHeader => "truncated ELF header"
  | truncatedProgramHeaders => "truncated program headers"
  | segmentOutOfImage => "segment lies outside the file"
  | fileLargerThanMemory => "segment p_filesz > p_memsz"
  | unalignedSegment => "segment p_vaddr is not page-aligned"
  | noLoadableSegments => "no PT_LOAD segments"
  | spanOverflow => "image span overflows the address space"

structure Rights where
  read : Bool
  write : Bool
  exec : Bool
  deriving DecidableEq

namespace Rights

def fromFlags (flags : UInt32) : Rights where
  read := flags &&& pfR != 0
  write := flags &&& pfW != 0
  exec := flags &&& pfX != 0

def isWx (r : Rights) : Bool := r.write && r.exec

end Rights

/-- A `PT_LOAD` segment, resolved against the image; `memsz` is `p_memsz`, and the bytes
beyond the file's are the zero-filled tail. -/
structure Segment where
  vaddr : UInt64
  file : Slice
  memsz : UInt64
  rights : Rights
  aligned : vaddr.toNat % 4096 = 0
  file_le : file.length ≤ memsz.toNat

/-- `memsz.div_ceil(PAGE_SIZE)` -/
def Segment.pages (s : Segment) : ℕ := (s.memsz.toNat + 4095) / 4096

def readU16 (b : Slice) (off : ℕ) : Option UInt16 := (b.readLe off 2).map (·.toUInt16)
def readU32 (b : Slice) (off : ℕ) : Option UInt32 := (b.readLe off 4).map (·.toUInt32)
def readU64 (b : Slice) (off : ℕ) : Option UInt64 := b.readLe off 8

structure Elf where
  image : Slice
  entry : UInt64
  phoff : ℕ
  phentsize : ℕ
  phnum : ℕ

namespace Elf

/-- The header fields once the identification is right: `e_entry`, `e_phoff`,
`e_phentsize` and `e_phnum`. -/
def parseFields (image : Slice) : Except ElfError Elf :=
  match readU64 image 24, readU64 image 32, readU16 image 54, readU16 image 56 with
  | some entry, some phoff, some phentsize, some phnum =>
    if phentsize < 56 then .error .truncatedProgramHeaders
    else
      let table := do
        let len ← checkedMul phentsize.toNat phnum.toNat
        checkedAdd phoff.toNat len
      match table with
      | none => .error .truncatedProgramHeaders
      | some tableEnd =>
        if tableEnd > image.length then .error .truncatedProgramHeaders
        else .ok ⟨image, entry, phoff.toNat, phentsize.toNat, phnum.toNat⟩
  | _, _, _, _ => .error .truncatedHeader

def parse (image : Slice) : Except ElfError Elf :=
  if image.length < 64 then .error .truncatedHeader
  else if (image.get 0 4).map (·.bytes) ≠ some [0x7F, 0x45, 0x4C, 0x46] then .error .notElf
  else if image.byte 4 ≠ 2 then .error .notElf64
  else if image.byte 5 ≠ 1 then .error .notLittleEndian
  else if readU16 image 16 ≠ some etExec then .error .wrongType
  else if readU16 image 18 ≠ some emX86_64 then .error .wrongMachine
  else parseFields image

/-- The segment of a `PT_LOAD` header with these fields. -/
def resolve (image : Slice) (flags : UInt32) (offset vaddr filesz memsz : UInt64) :
    Except ElfError Segment :=
  if hsize : filesz.toNat ≤ memsz.toNat then
    if halign : vaddr.toNat % 4096 = 0 then
      match hend : checkedAdd offset.toNat filesz.toNat with
      | none => .error .segmentOutOfImage
      | some stop =>
        if offset.toNat ≤ stop ∧ stop ≤ image.length then
          .ok {
            vaddr := vaddr
            file := image.sub offset.toNat stop
            memsz := memsz
            rights := Rights.fromFlags flags
            aligned := halign
            file_le := by
              have hstop := checkedAdd_eq hend
              rw [Slice.length_sub]
              omega }
        else .error .segmentOutOfImage
    else .error .unalignedSegment
  else .error .fileLargerThanMemory

/-- One header of the walk; other kinds are passed over. -/
def item (e : Elf) (index : ℕ) : Option (Except ElfError Segment) :=
  let ph := e.phoff + index * e.phentsize
  match readU32 e.image ph, readU32 e.image (ph + 4) with
  | some type, some flags =>
    if type ≠ ptLoad then none
    else
      match readU64 e.image (ph + 8), readU64 e.image (ph + 16), readU64 e.image (ph + 32),
        readU64 e.image (ph + 40) with
      | some offset, some vaddr, some filesz, some memsz =>
        some (resolve e.image flags offset vaddr filesz memsz)
      | _, _, _, _ => some (.error .truncatedProgramHeaders)
  | _, _ => some (.error .truncatedProgramHeaders)

/-- Everything the iterator yields. -/
def segments (e : Elf) : List (Except ElfError Segment) := (List.range e.phnum).filterMap e.item

/-- The loop of `load_span`, of which `lo` and `hi` are the bounds so far. -/
def spanFrom : List (Except ElfError Segment) → ℕ → ℕ → Except ElfError (ℕ × ℕ)
  | [], lo, hi => .ok (lo, hi)
  | .error err :: _, _, _ => .error err
  | .ok seg :: rest, lo, hi =>
    match checkedAdd seg.vaddr.toNat seg.memsz.toNat with
    | none => .error .spanOverflow
    | some stop => spanFrom rest (min lo seg.vaddr.toNat) (max hi stop)

/-- The base and the size of the image. -/
def loadSpan (e : Elf) : Except ElfError (UInt64 × UInt64) :=
  match spanFrom e.segments (2 ^ 64 - 1) 0 with
  | .error err => .error err
  | .ok (lo, hi) =>
    if lo = 2 ^ 64 - 1 then .error .noLoadableSegments
    else
      match checkedNextMultipleOf hi 4096 with
      | none => .error .spanOverflow
      | some hi => .ok (UInt64.ofNat lo, UInt64.ofNat (hi - lo))

theorem spanFrom_spec {l : List (Except ElfError Segment)} {lo hi lo' hi' : ℕ}
    (h : spanFrom l lo hi = .ok (lo', hi')) (hlt : hi < 2 ^ 64) :
    lo' ≤ lo ∧ hi ≤ hi' ∧ hi' < 2 ^ 64 ∧ ∀ seg, .ok seg ∈ l →
      lo' ≤ seg.vaddr.toNat ∧ seg.vaddr.toNat + seg.memsz.toNat ≤ hi' := by
  induction l generalizing lo hi with
  | nil =>
    obtain ⟨rfl, rfl⟩ := Prod.ext_iff.mp (Except.ok.inj h)
    exact ⟨Nat.le_refl _, Nat.le_refl _, hlt, fun _ hmem => absurd hmem List.not_mem_nil⟩
  | cons item rest ih =>
    cases item with
    | error err => cases h
    | ok seg =>
      rw [spanFrom] at h
      split at h
      · cases h
      · next stop hstop =>
        have hsum := checkedAdd_eq hstop
        have hbound := checkedAdd_lt hstop
        obtain ⟨hlo, hhi, hlt', hall⟩ := ih h (by omega)
        refine ⟨by omega, by omega, hlt', fun seg' hmem => ?_⟩
        obtain heq | hmem := List.mem_cons.mp hmem
        · obtain rfl := Except.ok.inj heq
          omega
        · exact hall seg' hmem

/-- The image holds the pages of all its segments, and does not wrap. -/
theorem loadSpan_spec {e : Elf} {base size : UInt64} (h : e.loadSpan = .ok (base, size)) :
    base.toNat + size.toNat ≤ 2 ^ 64 ∧ ∀ seg, .ok seg ∈ e.segments →
      base.toNat ≤ seg.vaddr.toNat ∧
        seg.vaddr.toNat + seg.pages * 4096 ≤ base.toNat + size.toNat := by
  unfold loadSpan at h
  split at h
  · cases h
  · next lo hi hspan =>
    obtain ⟨hlo, -, hlt, hall⟩ := spanFrom_spec hspan (by omega)
    split at h
    · cases h
    · split at h
      · cases h
      · next hi' hround =>
        obtain ⟨hmod, hle, hlt'⟩ := checkedNextMultipleOf_spec hround hlt
        obtain ⟨rfl, rfl⟩ := Prod.ext_iff.mp (Except.ok.inj h)
        have hword : ∀ x < 2 ^ 64, (UInt64.ofNat x).toNat = x := fun x hx =>
          UInt64.toNat_ofNat_of_lt' hx
        dsimp only
        rw [hword lo (by omega), hword (hi' - lo) (by omega)]
        refine ⟨by omega, fun seg hmem => ?_⟩
        obtain ⟨hfirst, hlast⟩ := hall seg hmem
        have haligned := seg.aligned
        unfold Segment.pages
        omega

end Elf

end StarOs.Elf64
