import StarOs.Boot.Alloc
import StarOs.Boot.LinearMap
import StarOs.Boot.LoadSpan
import StarOs.Bootinfo.Layout

/-! The loader's sequence. Files are read, the kernel is placed and mapped, memory is mapped, and
what the last steps need is reserved; then the memory map is taken and the boot services end, and
the hand-off is written. -/

namespace StarOs.Boot

open Bootinfo Elf64 Library LoaderM Paging

/-- How many descriptors the map may grow by before it is taken. -/
def mapSlackDescriptors : UInt64 := 32

def exitAttempts : ℕ := 8

/-- A file in memory. -/
structure Loaded where
  phys : UInt64
  len : UInt64

/-- The pages reserved for the last steps, and how much of them is used. -/
structure Reserved where
  infoPhys : UInt64
  mapBuf : UInt64
  mapPages : ℕ
  descSize : UInt64
  regionCapacity : ℕ
  regionsPhys : UInt64

/-- All that the last steps take: the hand-off but for the length of its map, what is reserved for
them, the tree and the image. -/
structure Ready where
  info : BootInfo
  reserved : Reserved
  tables : PageTables
  elf : Elf
  mapped : UInt64

/-- What the kernel is entered with: `CR3`, the entry point and `RDI`. The image and the extent of
the maps are recorded beside them. -/
structure Jump where
  tables : PageTables
  entry : UInt64
  rdi : UInt64
  elf : Elf
  mapped : UInt64

def kernelPath : List UInt16 := ("\\staros\\kernel".toList.map fun c => c.toNat.toUInt16) ++ [0]

def initrdPath : List UInt16 := ("\\staros\\initramfs".toList.map fun c => c.toNat.toUInt16) ++ [0]

/-- The bytes from `a` on, as many as a slice may have. -/
def sliceAt (a n : ℕ) (m : PhysMemory) : Slice where
  bytes := m.bytesAt a (min n isizeMax)
  length_le := by
    rw [PhysMemory.length_bytesAt]
    exact Nat.min_le_right _ _

section

variable {φ : Type} (fw : Firmware φ)

/-! ### What the firmware knows -/

/-- The loop of `find_rsdp`, with the table of the 1.0 entry seen last. -/
def findRsdpFrom : List (Guid × UInt64) → UInt64 → UInt64
  | [], fallback => fallback
  | (guid, table) :: rest, fallback =>
    if guid = acpi2Guid then table
    else findRsdpFrom rest (if guid = acpi1Guid then table else fallback)

def findRsdp : UInt64 := findRsdpFrom fw.configurationTable 0

def noFramebuffer : Screen := Screen.new 0 0 0 0 .bgrx8888

def pixelFormat (code : UInt32) : Option PixelFormat :=
  if code = 1 then some .bgrx8888 else if code = 0 then some .rgbx8888 else none

/-- The screen of a mode, if it is one the console can draw on. -/
def screenOf (mode : GopMode) : Screen :=
  match pixelFormat mode.pixelFormat with
  | none => noFramebuffer
  | some format =>
    let fb := Screen.new mode.framebufferBase mode.horizontalResolution mode.verticalResolution
      (mode.pixelsPerScanLine * 4) format
    if fb.isSane then fb else noFramebuffer

def locateFramebuffer : LoaderM φ Screen := do
  let reply ← call fw.locateGop
  return match isError reply.1, reply.2 with
    | false, some (some mode) => screenOf mode
    | _, _ => noFramebuffer

/-! ### Files -/

def handleProtocol (p : Protocol) (stage : String) : LoaderM φ Unit := do
  let reply ← call (fw.handleProtocol p)
  check stage reply.1
  if reply.2 then pure () else fail (.own "firmware returned a null protocol interface")

/-- `Volume::open` -/
def openVolume : LoaderM φ Unit := do
  handleProtocol fw .loadedImage "LoadedImage protocol"
  handleProtocol fw .simpleFileSystem "SimpleFileSystem on boot volume"
  let status ← call fw.openVolume
  check "OpenVolume" status

/-- The rest of `read_file`, of an open file of `len` bytes. -/
def readAll (file len : UInt64) : LoaderM φ Loaded := do
  let phys ← allocPages fw "allocate pages for file" (pagesFor len)
  let reply ← call (fw.readFile file len)
  store (PhysMemory.copy phys.toNat reply.2.2)
  check "Read" reply.1
  let _ ← call (fw.closeFile file)
  if reply.2.1 ≠ len then fail (.own "short read from the ESP")
  else do
    store (PhysMemory.fill (phys.toNat + len.toNat) (4096 * pagesFor len - len.toNat) 0)
    return ⟨phys, len⟩

def readFile (path : List UInt16) (what : String) : LoaderM φ Loaded := do
  let file ← call (fw.openFile path)
  if isError file.1 then
    fail (.efi (if what = "initramfs" then "open initramfs" else "open kernel") file.1)
  else do
    let info ← call (fw.getInfo file.2)
    check "GetInfo(EFI_FILE_INFO)" info.1
    if info.2 = 0 then fail (.own "file on the ESP is empty")
    else readAll fw file.2 info.2

def readKernel : LoaderM φ Loaded := readFile fw kernelPath "kernel"

/-- A file that is not there is no error. -/
def readInitrd : LoaderM φ (Option Loaded) := fun s =>
  match readFile fw initrdPath "initramfs" s with
  | (.ok l, s) => (.ok (some l), s)
  | (.error e, s) => if e.stage = "open initramfs" then (.ok none, s) else (.error e, s)

/-! ### The kernel and the maps -/

/-- The loop over the segments. -/
def loadSegments (tables : PageTables) (kernelPhys vbase : UInt64) :
    List (Except ElfError Segment) → LoaderM φ Unit
  | [] => pure ()
  | .error e :: _ => fail (.own e.asStr)
  | .ok seg :: rest =>
    if seg.rights.isWx then fail (.own "kernel image contains a writable+executable segment")
    else do
      let dest := kernelPhys + (seg.vaddr - vbase)
      store (PhysMemory.copy dest.toNat seg.file.bytes)
      mapPages fw tables seg.vaddr dest (UInt64.ofNat seg.pages * pageSize)
        (segmentRights seg.rights)
      loadSegments tables kernelPhys vbase rest

/-- Step 4: where the image is, how long it is, and the tree. -/
def placeKernel (gibPages : Bool) (elf : Elf) : LoaderM φ (UInt64 × UInt64 × PageTables) := do
  let (vbase, vsize) ← lift ElfError.asStr elf.loadSpan
  if vbase ≠ kernelVma then fail (.own "kernel image is not linked at the expected base")
  else do
    let kernelPhys ← allocPages fw "allocate kernel image" (pagesFor vsize)
    let tables ← newPageTables fw gibPages
    loadSegments fw tables kernelPhys vbase elf.segments
    return (kernelPhys, vsize, tables)

/-- `GetMemoryMap` into a buffer of `size` bytes, which the firmware writes. -/
def getMemoryMap (buf : UInt64) (size : UInt64) : LoaderM φ MapReply := do
  let reply ← call (fw.getMemoryMap size)
  record .getMemoryMap
  store (PhysMemory.copy buf.toNat reply.bytes)
  return reply

def memoryMapSize : LoaderM φ (UInt64 × UInt64) := do
  let reply ← getMemoryMap fw 0 0
  -- a buffer that is too small is the intended way to ask
  let _ ← (if reply.status ≠ Status.bufferTooSmall then
      check "GetMemoryMap (size query)" reply.status
    else pure () : LoaderM φ Unit)
  if reply.descriptorSize = 0 then fail (.own "firmware reported a zero descriptor size")
  else return (reply.size, reply.descriptorSize)

/-- How far the maps go, by a map of memory whose key is not used. -/
def probeMemory : LoaderM φ UInt64 := do
  let (probeLen, _) ← memoryMapSize fw
  let probeBuf ← allocPages fw "allocate probe map" (pagesFor probeLen)
  let reply ← getMemoryMap fw probeBuf (UInt64.ofNat (4096 * pagesFor probeLen))
  check "GetMemoryMap (probe)" reply.status
  let m ← memory
  let highest ← lift (fun _ : ConvertError => "firmware reported an impossible descriptor size")
    (highestRamAddress (sliceAt probeBuf.toNat reply.size.toNat m) reply.descriptorSize.toNat
      gib.toNat)
  return mappedBytes highest

/-- Step 5. -/
def mapAll (tables : PageTables) (framebuffer : Screen) : LoaderM φ UInt64 := do
  let mapped ← probeMemory fw
  let _ ← told (mapMemory (bootServiceFrames fw) tables mapped framebuffer.toFramebuffer)
  return mapped

/-! ### The last steps -/

/-- Step 6. -/
def reserve : LoaderM φ Reserved := do
  let infoPhys ← allocPages fw "allocate boot info" 1
  let (mapLen, descSize) ← memoryMapSize fw
  let mapPages := pagesFor (mapLen + mapSlackDescriptors * descSize)
  let mapBuf ← allocPages fw "allocate memory map" mapPages
  let regionCapacity := 4096 * mapPages / descSize.toNat
  let regionsPhys ← allocPages fw "allocate region array"
    (pagesFor (UInt64.ofNat (regionCapacity * memoryRegionSize)))
  return ⟨infoPhys, mapBuf, mapPages, descSize, regionCapacity, regionsPhys⟩

def exitBootServices (key : UInt64) : LoaderM φ Status := do
  let status ← call (fw.exitBootServices key)
  record (.exitBootServices status)
  return status

/-- One turn of step 7: how the services answered to the key of the map, and its size. -/
def tryToLeave (r : Reserved) : LoaderM φ (Status × UInt64) := do
  let reply ← getMemoryMap fw r.mapBuf (UInt64.ofNat (4096 * r.mapPages))
  check "GetMemoryMap" reply.status
  let status ← exitBootServices fw reply.key
  return (status, reply.size)

/-- Step 7, with so many attempts left after this one. -/
def leave (r : Reserved) : ℕ → LoaderM φ UInt64
  | 0 => do
    let (status, size) ← tryToLeave fw r
    if status = Status.success then return size else fail (.efi "ExitBootServices" status)
  | attempts + 1 => do
    let (status, size) ← tryToLeave fw r
    if status = Status.success then return size
    else if status ≠ Status.invalidParameter then fail (.efi "ExitBootServices" status)
    -- a stale key: the map is read again, and nothing is allocated
    else leave r attempts

/-- Step 8. -/
def handOff (r : Reserved) (mapSize : UInt64) (info : BootInfo) : LoaderM φ Unit := do
  let m ← memory
  let regions ← lift (fun _ : ConvertError => "memory map did not fit the buffer reserved for it")
    (convert (sliceAt r.mapBuf.toNat mapSize.toNat m) r.descSize.toNat r.regionCapacity)
  store (PhysMemory.copy r.regionsPhys.toNat (regions.flatMap MemoryRegion.encode))
  store (PhysMemory.copy r.infoPhys.toNat
    { info with memoryMapLen := UInt32.ofNat regions.length }.bytes)

/-- Steps 1 to 6. -/
def prepare (gibPages : Bool) : LoaderM φ Ready := do
  let framebuffer ← locateFramebuffer fw
  openVolume fw
  let kernelFile ← readKernel fw
  let initrd ← readInitrd fw
  let m ← memory
  let elf ← lift ElfError.asStr (Elf.parse (sliceAt kernelFile.phys.toNat kernelFile.len.toNat m))
  let (kernelPhys, vsize, tables) ← placeKernel fw gibPages elf
  let mapped ← mapAll fw tables framebuffer
  let r ← reserve fw
  return {
    info := {
      magic := BootInfo.magicWord
      version := BootInfo.currentVersion
      memoryMapLen := 0
      memoryMap := r.regionsPhys
      framebuffer := framebuffer
      rsdp := findRsdp fw
      initrd := (initrd.map Loaded.phys).getD 0
      initrdLen := (initrd.map Loaded.len).getD 0
      kernelPhys := kernelPhys
      kernelLen := vsize }
    reserved := r
    tables := tables
    elf := elf
    mapped := mapped }

/-- Steps 7 to 9, up to the jump. -/
def depart (r : Ready) : LoaderM φ Jump := do
  let mapSize ← leave fw r.reserved (exitAttempts - 1)
  handOff r.reserved mapSize r.info
  return ⟨r.tables, r.elf.entry, r.reserved.infoPhys, r.elf, r.mapped⟩

def run (gibPages : Bool) : LoaderM φ Jump := do
  let r ← prepare fw gibPages
  depart fw r

end

end StarOs.Boot
