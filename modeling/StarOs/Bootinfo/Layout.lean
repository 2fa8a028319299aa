import StarOs.Bootinfo.Handoff
import StarOs.Bootinfo.Memmap
import StarOs.Library.PhysMemory

/-! How the hand-off lies in memory. The loader writes the structures and the kernel reads them
from a different compilation unit, so that the layout is the contract: what is written at an
address is what is read there. -/

namespace StarOs.Bootinfo

open Library

/-- The codes of `repr(u32)`. -/
def MemoryKind.code : MemoryKind → UInt32
  | .usable => 0
  | .reserved => 1
  | .acpiReclaimable => 2
  | .acpiNvs => 3
  | .loaderReclaimable => 4
  | .badMemory => 5

def MemoryKind.ofCode (code : UInt32) : Option MemoryKind :=
  if code = 0 then some .usable
  else if code = 1 then some .reserved
  else if code = 2 then some .acpiReclaimable
  else if code = 3 then some .acpiNvs
  else if code = 4 then some .loaderReclaimable
  else if code = 5 then some .badMemory
  else none

inductive PixelFormat where
  | bgrx8888
  | rgbx8888
  deriving DecidableEq

def PixelFormat.code : PixelFormat → UInt32
  | .bgrx8888 => 0
  | .rgbx8888 => 1

def PixelFormat.ofCode (code : UInt32) : Option PixelFormat :=
  if code = 0 then some .bgrx8888 else if code = 1 then some .rgbx8888 else none

/-- `Framebuffer` with the fields that say how a pixel is drawn. -/
structure Screen extends Framebuffer where
  bpp : UInt32
  format : PixelFormat
  deriving DecidableEq

/-- `Framebuffer::new` -/
def Screen.new (phys : UInt64) (width height stride : UInt32) (format : PixelFormat) : Screen :=
  ⟨⟨phys, width, height, stride⟩, 32, format⟩

structure BootInfo where
  magic : UInt64
  version : UInt32
  memoryMapLen : UInt32
  memoryMap : UInt64
  framebuffer : Screen
  rsdp : UInt64
  initrd : UInt64
  initrdLen : UInt64
  kernelPhys : UInt64
  kernelLen : UInt64
  deriving DecidableEq

inductive BootInfoError where
  | badMagic | badVersion | noMemoryMap
  deriving DecidableEq

namespace BootInfo

/-- `u64::from_le_bytes(*b"STAROSPC")` -/
def magicWord : UInt64 := fromLeBytes [0x53, 0x54, 0x41, 0x52, 0x4F, 0x53, 0x50, 0x43]

/-- `VERSION` -/
def currentVersion : UInt32 := 1

def validate (info : BootInfo) : Except BootInfoError Unit :=
  if info.magic ≠ magicWord then .error .badMagic
  else if info.version ≠ currentVersion then .error .badVersion
  else if info.memoryMap = 0 ∨ info.memoryMapLen = 0 then .error .noMemoryMap
  else .ok ()

/-- The fields in the order of `repr(C)`, the padding zero. -/
def bytes (info : BootInfo) : List UInt8 :=
  leBytes info.magic ++ (leBytes32 info.version ++ (leBytes32 info.memoryMapLen ++
    (leBytes info.memoryMap ++ (leBytes info.framebuffer.phys ++
    (leBytes32 info.framebuffer.width ++ (leBytes32 info.framebuffer.height ++
    (leBytes32 info.framebuffer.stride ++ (leBytes32 info.framebuffer.bpp ++
    (leBytes32 info.framebuffer.format.code ++ (leBytes32 0 ++ (leBytes info.rsdp ++
    (leBytes info.initrd ++ (leBytes info.initrdLen ++ (leBytes info.kernelPhys ++
    (leBytes info.kernelLen ++ [])))))))))))))))

/-- None where the pixel format is no value of its type. -/
def ofBytes (b : List UInt8) : Option BootInfo :=
  let (magic, b) := takeU64 b
  let (version, b) := takeU32 b
  let (memoryMapLen, b) := takeU32 b
  let (memoryMap, b) := takeU64 b
  let (phys, b) := takeU64 b
  let (width, b) := takeU32 b
  let (height, b) := takeU32 b
  let (stride, b) := takeU32 b
  let (bpp, b) := takeU32 b
  let (code, b) := takeU32 b
  let (_, b) := takeU32 b
  let (rsdp, b) := takeU64 b
  let (initrd, b) := takeU64 b
  let (initrdLen, b) := takeU64 b
  let (kernelPhys, b) := takeU64 b
  let (kernelLen, _) := takeU64 b
  (PixelFormat.ofCode code).map fun format =>
    ⟨magic, version, memoryMapLen, memoryMap, ⟨⟨phys, width, height, stride⟩, bpp, format⟩, rsdp,
      initrd, initrdLen, kernelPhys, kernelLen⟩

/-- `*boot_info` -/
def readAt (a : ℕ) (m : PhysMemory) : Option BootInfo := ofBytes (m.bytesAt a 96)

end BootInfo

namespace MemoryRegion

/-- The fields in the order of `repr(C)`. -/
def encode (r : MemoryRegion) : List UInt8 :=
  leBytes (UInt64.ofNat r.start) ++ (leBytes (UInt64.ofNat r.len) ++
    (leBytes32 r.kind.code ++ (leBytes32 0 ++ [])))

def decode (b : List UInt8) : Option MemoryRegion :=
  let (start, b) := takeU64 b
  let (len, b) := takeU64 b
  let (code, _) := takeU32 b
  (MemoryKind.ofCode code).map fun kind => ⟨start.toNat, len.toNat, kind, le_u64Max _, le_u64Max _⟩

/-- The `n` elements of the array at `a`; none where one has no kind. -/
def readArray (m : PhysMemory) : (a n : ℕ) → Option (List MemoryRegion)
  | _, 0 => some []
  | a, n + 1 =>
    match decode (m.bytesAt a 24), readArray m (a + 24) n with
    | some r, some rest => some (r :: rest)
    | _, _ => none

end MemoryRegion

/-- `size_of::<MemoryRegion>()` -/
def memoryRegionSize : ℕ := 24

/-! ### What is written is read -/

section

variable {info : BootInfo} {m : PhysMemory} {a : ℕ} {r : MemoryRegion} {regions : List MemoryRegion}

@[simp] theorem MemoryKind.ofCode_code (k : MemoryKind) : MemoryKind.ofCode k.code = some k := by
  cases k <;> rfl

@[simp] theorem PixelFormat.ofCode_code (f : PixelFormat) : PixelFormat.ofCode f.code = some f := by
  cases f <;> rfl

@[simp] theorem BootInfo.length_bytes (info : BootInfo) : info.bytes.length = 96 := by
  simp [BootInfo.bytes]

@[simp] theorem MemoryRegion.length_encode (r : MemoryRegion) : r.encode.length = 24 := by
  simp [MemoryRegion.encode]

theorem BootInfo.ofBytes_bytes (info : BootInfo) : BootInfo.ofBytes info.bytes = some info := by
  rw [BootInfo.bytes]
  simp only [BootInfo.ofBytes, takeU64_append, takeU32_append, PixelFormat.ofCode_code,
    Option.map_some]

theorem toNat_ofNat_le {n : ℕ} (h : n ≤ u64Max) : (UInt64.ofNat n).toNat = n :=
  UInt64.toNat_ofNat_of_lt' (by simp only [UInt64.size, u64Max] at *; omega)

theorem MemoryRegion.decode_encode (r : MemoryRegion) : MemoryRegion.decode r.encode = some r := by
  simp [MemoryRegion.decode, MemoryRegion.encode, toNat_ofNat_le r.start_le, toNat_ofNat_le r.len_le]

theorem BootInfo.readAt_copy (m : PhysMemory) (a : ℕ) (info : BootInfo) :
    BootInfo.readAt a (m.copy a info.bytes) = some info := by
  have hbytes := PhysMemory.bytesAt_copy m a info.bytes
  rw [info.length_bytes] at hbytes
  rw [BootInfo.readAt, hbytes, BootInfo.ofBytes_bytes]

theorem length_flatMap_encode (regions : List MemoryRegion) :
    (regions.flatMap MemoryRegion.encode).length = 24 * regions.length := by
  induction regions with
  | nil => rfl
  | cons r rest ih =>
    rw [List.flatMap_cons, List.length_append, ih, r.length_encode, List.length_cons]
    omega

/-- The array of regions is read as it was written. -/
theorem MemoryRegion.readArray_copy (m : PhysMemory) (a : ℕ) (regions : List MemoryRegion) :
    MemoryRegion.readArray (m.copy a (regions.flatMap MemoryRegion.encode)) a regions.length =
      some regions := by
  induction regions generalizing a m with
  | nil => rfl
  | cons r rest ih =>
    have hr := r.length_encode
    rw [List.flatMap_cons, PhysMemory.copy_append, hr, List.length_cons, MemoryRegion.readArray, ih]
    have hsame : PhysMemory.Same a (a + 24) (m.copy a r.encode)
        ((m.copy a r.encode).copy (a + 24) (rest.flatMap MemoryRegion.encode)) :=
      PhysMemory.same_copy (.inl (Nat.le_refl _))
    have hfirst := PhysMemory.bytesAt_copy m a r.encode
    rw [hr] at hfirst
    rw [hsame.bytesAt, hfirst, MemoryRegion.decode_encode]

theorem MemoryRegion.readArray_congr {m' : PhysMemory} {n : ℕ} (h : PhysMemory.Same a (a + 24 * n) m m') :
    MemoryRegion.readArray m' a n = MemoryRegion.readArray m a n := by
  induction n generalizing a with
  | zero => rfl
  | succ n ih =>
    have hfirst : m'.bytesAt a 24 = m.bytesAt a 24 := (h.mono le_rfl (by omega)).bytesAt
    rw [MemoryRegion.readArray, MemoryRegion.readArray, hfirst, ih (h.mono (by omega) (by omega))]

end

end StarOs.Bootinfo
