import StarOs.Elf64.Image
import StarOs.Kernel.Frames

/-! Address spaces: a top table whose upper half is copied from the kernel's, the pages a
program is loaded into, and the teardown that gives the lower half back. Every function returns
the memory as it leaves it, also when it fails. -/

namespace StarOs.Kernel

open Library Library.Loop Paging

def kernelPml4First : ℕ := 256

def userLimit : UInt64 := 0x0000800000000000

def userStack : UInt64 := 0x000000007FFFF000

def userDataVa : UInt64 := 0x0000000400000000

def userClockVa : UInt64 := 0x0000000400010000

/-- The kernel's tree, as far as a space depends on it. -/
structure Tables where
  root : UInt64
  gibPages : Bool

structure AddressSpace where
  root : UInt64
  entry : UInt64
  gibPages : Bool
  borrowed : Option UInt64
  deriving DecidableEq

namespace AddressSpace

section

variable {σ : Type} (P : FramePool σ)

/-- `table.add(slot).write(kernel_table.add(slot).read())` for the kernel's slots. -/
def copyKernelHalf (kernelRoot root : UInt64) (m : Mem σ) : Mem σ :=
  forRange 256 (fun m k =>
    m.write P root (kernelPml4First + k) (m.read P kernelRoot (kernelPml4First + k))) m

def new (tables : Tables) (m : Mem σ) : Except String AddressSpace × Mem σ :=
  match allocFrame P m with
  | (none, m) => (.error "no frame for a user PML4", m)
  | (some root, m) =>
    let m := copyKernelHalf P tables.root root (zeroFrame P root m)
    (.ok ⟨root, 0, tables.gibPages, none⟩, m)

def mapper (a : AddressSpace) : Mapper := Mapper.adopt a.root a.gibPages

def map (a : AddressSpace) (virt phys : UInt64) (rights : Rights) (m : Mem σ) :
    Except String Unit × Mem σ :=
  if !rights.user then (.error "a user mapping without the user bit is one ring 3 cannot use", m)
  else
    match a.mapper.map (kernelFrames P) virt phys pageSize rights m with
    | (.error e, m) => (.error e.asStr, m)
    | (.ok (), m) => (.ok (), m)

/-- A fresh frame, zeroed, with the bytes copied to its start, mapped at `virt`. -/
def mapFresh (a : AddressSpace) (message : String) (virt : UInt64) (bytes : List UInt8)
    (rights : Rights) (m : Mem σ) : Except String Unit × Mem σ :=
  match allocFrame P m with
  | (none, m) => (.error message, m)
  | (some frame, m) =>
    a.map P virt frame rights (copyToFrame P frame bytes (zeroFrame P frame m))

def segmentRights (s : Elf64.Segment) : Rights := ⟨s.rights.write, s.rights.exec, true⟩

/-- The loop over the pages of a segment, with `n` pages to go. -/
def loadPages (a : AddressSpace) (s : Elf64.Segment) : ℕ → ℕ → ℕ → Mem σ → Except String Unit × Mem σ
  | 0, _, _, m => (.ok (), m)
  | n + 1, page, copied, m =>
    let take := min 4096 (s.file.length - copied)
    match a.mapFresh P "no frame for a program segment" (s.vaddr + UInt64.ofNat (page * 4096))
        (s.file.sub copied (copied + take)).bytes (segmentRights s) m with
    | (.error e, m) => (.error e, m)
    | (.ok (), m) => loadPages a s n (page + 1) (copied + take) m

/-- The loop of `load` over what the image's segments yield. -/
def loadSegments (a : AddressSpace) :
    List (Except Elf64.ElfError Elf64.Segment) → Mem σ → Except String Unit × Mem σ
  | [], m => (.ok (), m)
  | .error e :: _, m => (.error e.asStr, m)
  | .ok s :: rest, m =>
    if s.rights.isWx then
      (.error "the image has a segment that is both writable and executable", m)
    else if s.vaddr ≥ userLimit || s.memsz > userLimit - s.vaddr then
      (.error "a segment does not fit in the user half of the address space", m)
    else
      match loadPages P a s s.pages 0 0 m with
      | (.error e, m) => (.error e, m)
      | (.ok (), m) => loadSegments a rest m

def load (a : AddressSpace) (image : Elf64.Elf) (m : Mem σ) :
    Except String Unit × AddressSpace × Mem σ :=
  match a.loadSegments P image.segments m with
  | (.error e, m) => (.error e, a, m)
  | (.ok (), m) =>
    let a := { a with entry := image.entry }
    if a.entry ≥ userLimit then (.error "the image's entry point is not a user address", a, m)
    else (.ok (), a, m)

def mapStack (a : AddressSpace) (m : Mem σ) : Except String Unit × Mem σ :=
  a.mapFresh P "no frame for a user stack" userStack [] Rights.rw.toUser m

def seedId (a : AddressSpace) (id : UInt8) (m : Mem σ) : Except String Unit × Mem σ :=
  a.mapFresh P "no frame for the process id page" userDataVa [id] Rights.rw.toUser m

def mapClock (a : AddressSpace) (frame : UInt64) (m : Mem σ) :
    Except String Unit × AddressSpace × Mem σ :=
  let a := { a with borrowed := some frame }
  let (res, m) := a.map P userClockVa frame Rights.ro.toUser m
  (res, a, m)

def translate (a : AddressSpace) (virt : UInt64) (m : Mem σ) : Option UInt64 :=
  (a.mapper.translate (kernelFrames P) virt m).map (·.phys)

/-- The body of the loop of `free_level` over the slots of a table, whose entries are at
`level`; `below` frees the table an entry points to. -/
def freeSlot (borrowed : Option UInt64) (level : ℕ) (below : UInt64 → Mem σ → ℕ × Mem σ)
    (table : UInt64) (acc : ℕ × Mem σ) (slot : ℕ) : ℕ × Mem σ :=
  let entry := acc.2.read P table slot
  if !present entry then acc
  else
    let frame := entry &&& pteAddrMask
    if level == 0 || huge entry then
      if some frame == borrowed then acc
      else (acc.1 + 1, freeFrame P frame acc.2)
    else
      let (freed, m) := below frame acc.2
      (acc.1 + freed + 1, freeFrame P frame m)

/-- `free_level` of a table whose entries are at `level`, which the source counts from one. -/
def freeLevel (borrowed : Option UInt64) : ℕ → UInt64 → Mem σ → ℕ × Mem σ
  | 0, table, m => forRange 512 (freeSlot P borrowed 0 (fun _ m => (0, m)) table) (0, m)
  | level + 1, table, m =>
    let last := if level + 1 = 3 then kernelPml4First else 512
    forRange last (freeSlot P borrowed (level + 1) (freeLevel borrowed level) table) (0, m)

def destroy (a : AddressSpace) (m : Mem σ) : ℕ × Mem σ :=
  let (freed, m) := freeLevel P a.borrowed 3 a.root m
  (freed + 1, freeFrame P a.root m)

end

end AddressSpace

section

variable {σ : Type} (P : FramePool σ)

def reachableByUser (entry : UInt64) : Bool := entry &&& ptePresent != 0 && entry &&& pteUser != 0

def userReachableKernelSlots (root : UInt64) (m : Mem σ) : ℕ :=
  forRange 256 (fun count k =>
    if reachableByUser (m.read P root (kernelPml4First + k)) then count + 1 else count) 0

/-- `build_space` around an image; `clock` is the frame of the tick counter. -/
def buildSpace (tables : Tables) (clock : UInt64) (image : Slice) (id : UInt8) (m : Mem σ) :
    Except String AddressSpace × Mem σ :=
  match Elf64.Elf.parse image with
  | .error e => (.error e.asStr, m)
  | .ok elf =>
    match AddressSpace.new P tables m with
    | (.error e, m) => (.error e, m)
    | (.ok a, m) =>
      match a.load P elf m with
      | (.error e, _, m) => (.error e, m)
      | (.ok (), a, m) =>
        match a.mapStack P m with
        | (.error e, m) => (.error e, m)
        | (.ok (), m) =>
          match a.seedId P id m with
          | (.error e, m) => (.error e, m)
          | (.ok (), m) =>
            match a.mapClock P clock m with
            | (.error e, _, m) => (.error e, m)
            | (.ok (), a, m) => (.ok a, m)

end

end StarOs.Kernel
