import Mathlib.Data.Set.Insert
import StarOs.Bootinfo.Handoff
import StarOs.Bootinfo.Memmap
import StarOs.Library.PhysMemory

/-! The firmware under the loader. What it is asked for is a parameter; `Contract` is what its
specification promises: pages it gives away are nobody else's and are listed as the loader's, a
memory map comes with the key of that map, and the services end only for a key that is current. -/

namespace StarOs.Boot

open Bootinfo Library

abbrev Status := UInt64

def errorBit : Status := 0x8000000000000000

namespace Status

def success : Status := 0

/-- `ExitBootServices` for a stale key. -/
def invalidParameter : Status := errorBit ||| 2

def bufferTooSmall : Status := errorBit ||| 5

end Status

def isError (status : Status) : Bool := status &&& errorBit ≠ 0

structure Guid where
  a : UInt32
  b : UInt16
  c : UInt16
  d : List UInt8
  deriving DecidableEq

def acpi2Guid : Guid :=
  ⟨0x8868e871, 0xe4f1, 0x11d3, [0xbc, 0x22, 0x00, 0x80, 0xc7, 0x3c, 0x88, 0x81]⟩

def acpi1Guid : Guid :=
  ⟨0xeb9d2d30, 0x2d88, 0x11d3, [0x9a, 0x16, 0x00, 0x90, 0x27, 0x3f, 0xc1, 0x4d]⟩

/-- The two protocols the loader asks a handle for. -/
inductive Protocol where
  | loadedImage
  | simpleFileSystem

/-- The current mode of the graphics output protocol. -/
structure GopMode where
  framebufferBase : UInt64
  horizontalResolution : UInt32
  verticalResolution : UInt32
  pixelFormat : UInt32
  pixelsPerScanLine : UInt32

/-- What `GetMemoryMap` answers, and the bytes it wrote to the buffer. -/
structure MapReply where
  status : Status
  size : UInt64
  key : UInt64
  descriptorSize : UInt64
  bytes : List UInt8

/-- The services the loader calls, over the states of a firmware whose boot services are live. -/
structure Firmware (φ : Type) where
  /-- the configuration tables of the system table -/
  configurationTable : List (Guid × UInt64)
  /-- the interface is null, or reports no mode, or this mode -/
  locateGop : φ → (Status × Option (Option GopMode)) × φ
  /-- whether the interface is not null -/
  handleProtocol : Protocol → φ → (Status × Bool) × φ
  openVolume : φ → Status × φ
  openFile : List UInt16 → φ → (Status × UInt64) × φ
  /-- the file size in `EFI_FILE_INFO` -/
  getInfo : UInt64 → φ → (Status × UInt64) × φ
  /-- how much was read, and the bytes -/
  readFile : UInt64 → UInt64 → φ → (Status × UInt64 × List UInt8) × φ
  closeFile : UInt64 → φ → Status × φ
  allocatePages : ℕ → φ → (Status × UInt64) × φ
  getMemoryMap : UInt64 → φ → MapReply × φ
  exitBootServices : UInt64 → φ → Status × φ

/-- The addresses of `n` pages from `p` on. -/
def pagesFrom (p : UInt64) (n : ℕ) : Set UInt64 := {q | ∃ i < n, q = p + UInt64.ofNat (4096 * i)}

/-- One past the last byte of a descriptor that does not wrap. -/
def stop (d : Descriptor) : ℕ := d.phys.toNat + 4096 * d.pages.toNat

/-- What the specification promises. `given` are the pages handed to the loader, `map` is the
memory map and `key` the key that names it. -/
structure Contract {φ : Type} (fw : Firmware φ) where
  given : φ → Set UInt64
  map : φ → List Descriptor
  key : φ → UInt64
  stride : UInt64
  stride_le : memoryDescriptorSize ≤ stride.toNat
  /-- a key names one map -/
  keyed : ∀ {s s'}, key s = key s' → map s = map s'
  aligned : ∀ {s q}, q ∈ given s → q.toNat % 4096 = 0
  /-- the loader's pages are listed as the loader's -/
  listed : ∀ {s q}, q ∈ given s → ∃ d ∈ map s, d.ty = MemoryType.loaderData ∧
    d.phys.toNat ≤ q.toNat ∧ q.toNat + 4096 ≤ stop d
  stop_lt : ∀ {s}, ∀ d ∈ map s, stop d < 2 ^ 64
  apart : ∀ s, (map s).Pairwise fun d d' => stop d ≤ d'.phys.toNat ∨ stop d' ≤ d.phys.toNat
  locateGop : ∀ {s r s'}, fw.locateGop s = (r, s') → given s' = given s
  handleProtocol : ∀ {p s r s'}, fw.handleProtocol p s = (r, s') → given s' = given s
  openVolume : ∀ {s r s'}, fw.openVolume s = (r, s') → given s' = given s
  openFile : ∀ {path s r s'}, fw.openFile path s = (r, s') → given s' = given s
  getInfo : ∀ {f s r s'}, fw.getInfo f s = (r, s') → given s' = given s
  readFile : ∀ {f n s status got bytes s'}, fw.readFile f n s = ((status, got, bytes), s') →
    given s' = given s ∧ bytes.length ≤ n.toNat
  closeFile : ∀ {f s r s'}, fw.closeFile f s = (r, s') → given s' = given s
  allocated : ∀ {n s status p s'}, fw.allocatePages n s = ((status, p), s') →
    isError status = false → 0 < n → p.toNat % 4096 = 0 ∧ p.toNat + 4096 * n ≤ 2 ^ 52 ∧
      (∀ q ∈ pagesFrom p n, q ∉ given s) ∧ given s' = pagesFrom p n ∪ given s
  refused : ∀ {n s status p s'}, fw.allocatePages n s = ((status, p), s') →
    isError status = true → given s' = given s
  mapped : ∀ {n s r s'}, fw.getMemoryMap n s = (r, s') →
    given s' = given s ∧ r.bytes.length ≤ n.toNat
  /-- the size of a descriptor is told also when the buffer is too small -/
  strided : ∀ {n s r s'}, fw.getMemoryMap n s = (r, s') →
    isError r.status = false ∨ r.status = Status.bufferTooSmall → r.descriptorSize = stride
  described : ∀ {n s r s'}, fw.getMemoryMap n s = (r, s') → isError r.status = false →
    r.size.toNat = r.bytes.length ∧ r.key = key s' ∧
      ∀ raw : Slice, raw.bytes = r.bytes → descriptors raw stride.toNat = map s'
  exited : ∀ {k s status s'}, fw.exitBootServices k s = (status, s') →
    given s' = given s ∧ (status = Status.success → k = key s')

theorem isError_bufferTooSmall : isError Status.bufferTooSmall = true := by decide

section

variable {p q : UInt64} {n : ℕ}

theorem mem_pagesFrom (hp : p.toNat % 4096 = 0) (hn : p.toNat + 4096 * n ≤ 2 ^ 52) :
    q ∈ pagesFrom p n ↔ q.toNat % 4096 = 0 ∧ p.toNat ≤ q.toNat ∧ q.toNat + 4096 ≤ p.toNat + 4096 * n := by
  have hsum {i : ℕ} (hi : i < n) : (p + UInt64.ofNat (4096 * i)).toNat = p.toNat + 4096 * i := by
    rw [UInt64.toNat_add, UInt64.toNat_ofNat_of_lt' (by rw [UInt64.size]; omega),
      Nat.mod_eq_of_lt (by omega)]
  constructor
  · rintro ⟨i, hi, rfl⟩
    rw [hsum hi]
    omega
  · rintro ⟨hq, hlo, hhi⟩
    have hi : (q.toNat - p.toNat) / 4096 < n := by omega
    refine ⟨(q.toNat - p.toNat) / 4096, hi, UInt64.toNat_inj.mp ?_⟩
    rw [hsum hi]
    omega

theorem pagesFrom_one (p : UInt64) : pagesFrom p 1 = {p} := by
  ext q
  simp [pagesFrom]

end

/-! ### A firmware that keeps the contract -/

/-- `EFI_MEMORY_DESCRIPTOR` in a stride of 48 bytes. -/
def encodeDescriptor (d : Descriptor) : List UInt8 :=
  leBytes32 d.ty ++ (leBytes32 0 ++ (leBytes d.phys ++ (leBytes 0 ++ (leBytes d.pages ++
    (leBytes 15 ++ leBytes 0)))))

theorem length_encodeDescriptor (d : Descriptor) : (encodeDescriptor d).length = 48 := by
  simp [encodeDescriptor]

theorem length_flatMap_encodeDescriptor (l : List Descriptor) :
    (l.flatMap encodeDescriptor).length = 48 * l.length := by
  induction l with
  | nil => rfl
  | cons d l ih =>
    rw [List.flatMap_cons, List.length_append, ih, length_encodeDescriptor, List.length_cons]
    omega

theorem drop_encode (l : List Descriptor) {i : ℕ} (hi : i < l.length) :
    ∃ rest, (l.flatMap encodeDescriptor).drop (i * 48) = encodeDescriptor l[i] ++ rest := by
  induction l generalizing i with
  | nil => exact absurd hi (Nat.not_lt_zero i)
  | cons d l ih =>
    cases i with
    | zero => exact ⟨l.flatMap encodeDescriptor, by simp⟩
    | succ i =>
      obtain ⟨rest, hrest⟩ := ih (Nat.lt_of_succ_lt_succ hi)
      refine ⟨rest, ?_⟩
      rw [List.flatMap_cons, Nat.succ_mul, Nat.add_comm, ← List.drop_drop,
        List.drop_left' (length_encodeDescriptor d), hrest]
      rfl

theorem sub_at (raw : Slice) {o a b : ℕ} {front back : List UInt8}
    (h : raw.bytes.drop o = front ++ back) (hb : b ≤ front.length) :
    (raw.sub (o + a) (o + b)).bytes = (front.take b).drop a := by
  change (raw.bytes.take (o + b)).drop (o + a) = _
  rw [← List.drop_drop, List.drop_take, Nat.add_sub_cancel_left, h, List.take_append_of_le_length hb]

/-- Descriptors are read from where they were written. -/
theorem descriptors_encode (raw : Slice) (l : List Descriptor)
    (h : raw.bytes = l.flatMap encodeDescriptor) : descriptors raw 48 = l := by
  have hlen : raw.length / 48 = l.length := by
    rw [Slice.length, h, length_flatMap_encodeDescriptor]
    omega
  refine List.ext_getElem (by simp [descriptors, hlen]) fun i hi hi' => ?_
  simp only [descriptors, List.getElem_map, List.getElem_range]
  obtain ⟨rest, hrest⟩ := drop_encode l hi'
  rw [← h] at hrest
  have hlong := length_encodeDescriptor l[i]
  have hty := sub_at raw (a := 0) (b := 4) hrest (by omega)
  have hphys := sub_at raw (a := 8) (b := 16) hrest (by omega)
  have hpages := sub_at raw (a := 24) (b := 32) hrest (by omega)
  rw [Nat.add_zero] at hty
  rw [descriptorAt, hty, hphys, hpages]
  simp only [encodeDescriptor]
  simp [List.take_append, List.drop_append, List.take_of_length_le, List.drop_of_length_le]

/-- A firmware that hands out a megabyte in order, and that has not finished with its own memory
when it is first asked to leave. -/
structure Settling where
  pages : ℕ
  settled : Bool
  pages_le : pages ≤ 256

namespace Settling

def base : UInt64 := 0x200000

/-- The first page that is not given away. -/
def next (s : Settling) : UInt64 := base + UInt64.ofNat (4096 * s.pages)

def map (s : Settling) : List Descriptor :=
  [⟨MemoryType.loaderData, base, UInt64.ofNat s.pages⟩,
    ⟨MemoryType.conventional, s.next, UInt64.ofNat (256 - s.pages)⟩,
    ⟨MemoryType.bootServicesData, 0x300000, if s.settled then 1 else 2⟩,
    ⟨MemoryType.conventional, if s.settled then 0x301000 else 0x302000, 2048⟩]

def key (s : Settling) : UInt64 := UInt64.ofNat (2 * s.pages + s.settled.toNat)

/-- It holds this file under the kernel's name and no other. -/
def firmware (file : List UInt8) : Firmware Settling where
  configurationTable := [(acpi1Guid, 0xF0000), (acpi2Guid, 0x7FE0000)]
  locateGop s := ((errorBit ||| 14, none), s)
  handleProtocol _ s := ((Status.success, true), s)
  openVolume s := (Status.success, s)
  openFile path s := (if path.length = 15 then (Status.success, 1) else (errorBit ||| 14, 0), s)
  getInfo _ s := ((Status.success, UInt64.ofNat file.length), s)
  readFile _ n s := ((Status.success, n, file.take n.toNat), s)
  closeFile _ s := (Status.success, s)
  allocatePages n s :=
    if h : s.pages + n ≤ 256 then
      ((Status.success, s.next), { s with pages := s.pages + n, pages_le := h })
    else ((errorBit ||| 9, 0), s)
  getMemoryMap n s :=
    if 192 ≤ n.toNat then
      (⟨Status.success, 192, s.key, 48, s.map.flatMap encodeDescriptor⟩, s)
    else (⟨Status.bufferTooSmall, 192, 0, 48, []⟩, s)
  exitBootServices k s :=
    if s.settled ∧ k = s.key then (Status.success, s)
    else (Status.invalidParameter, { s with settled := true })

def given (s : Settling) : Set UInt64 := pagesFrom base s.pages

theorem next_toNat (s : Settling) : s.next.toNat = 0x200000 + 4096 * s.pages := by
  have h := s.pages_le
  rw [next, base, UInt64.toNat_add, UInt64.toNat_ofNat_of_lt' (by rw [UInt64.size]; omega)]
  change (0x200000 + 4096 * s.pages) % 2 ^ 64 = _
  omega

theorem mem_given {s : Settling} {q : UInt64} : q ∈ s.given ↔
    q.toNat % 4096 = 0 ∧ 0x200000 ≤ q.toNat ∧ q.toNat + 4096 ≤ 0x200000 + 4096 * s.pages := by
  have h := s.pages_le
  exact mem_pagesFrom (p := base) (by decide) (by change 0x200000 + _ ≤ _; omega)

theorem key_inj {s s' : Settling} (h : s.key = s'.key) : s = s' := by
  obtain ⟨pages, settled, hp⟩ := s
  obtain ⟨pages', settled', hp'⟩ := s'
  have hkey := congrArg UInt64.toNat h
  have hb := settled.toNat_lt
  have hb' := settled'.toNat_lt
  simp only [key] at hkey
  rw [UInt64.toNat_ofNat_of_lt' (by rw [UInt64.size]; omega),
    UInt64.toNat_ofNat_of_lt' (by rw [UInt64.size]; omega)] at hkey
  obtain rfl : pages = pages' := by omega
  have hsettled : settled.toNat = settled'.toNat := by omega
  cases settled <;> cases settled' <;> simp_all

/-- One past the last byte of each of its ranges. -/
theorem map_stops (s : Settling) : s.map.map (fun d => (d.phys.toNat, stop d)) =
    [(0x200000, 0x200000 + 4096 * s.pages), (0x200000 + 4096 * s.pages, 0x300000),
      (0x300000, if s.settled then 0x301000 else 0x302000),
      (if s.settled then 0x301000 else 0x302000, if s.settled then 0xB01000 else 0xB02000)] := by
  have h := s.pages_le
  have hnext := s.next_toNat
  have hpages : (UInt64.ofNat s.pages).toNat = s.pages :=
    UInt64.toNat_ofNat_of_lt' (by rw [UInt64.size]; omega)
  have hrest : (UInt64.ofNat (256 - s.pages)).toNat = 256 - s.pages :=
    UInt64.toNat_ofNat_of_lt' (by rw [UInt64.size]; omega)
  simp only [map, List.map_cons, List.map_nil, stop, hnext, hpages, hrest]
  cases s.settled
  · simp [base]; omega
  · simp [base]; omega

theorem listed {s : Settling} {q : UInt64} (h : q ∈ s.given) :
    ∃ d ∈ s.map, d.ty = MemoryType.loaderData ∧ d.phys.toNat ≤ q.toNat ∧
      q.toNat + 4096 ≤ stop d := by
  obtain ⟨-, hlo, hhi⟩ := mem_given.mp h
  have hlt := s.pages_le
  have hpages : (UInt64.ofNat s.pages).toNat = s.pages :=
    UInt64.toNat_ofNat_of_lt' (by rw [UInt64.size]; omega)
  refine ⟨_, List.mem_cons_self, rfl, hlo, ?_⟩
  change _ ≤ 0x200000 + 4096 * (UInt64.ofNat s.pages).toNat
  omega

theorem stop_lt {s : Settling} (d : Descriptor) (hd : d ∈ s.map) : stop d < 2 ^ 64 := by
  have hmem := List.mem_map_of_mem (f := fun d : Descriptor => (d.phys.toNat, stop d)) hd
  have hlt := s.pages_le
  rw [map_stops] at hmem
  simp only [List.mem_cons, Prod.mk.injEq, List.not_mem_nil, or_false] at hmem
  split at hmem <;> omega

theorem apart (s : Settling) :
    s.map.Pairwise fun d d' => stop d ≤ d'.phys.toNat ∨ stop d' ≤ d.phys.toNat := by
  have hlt := s.pages_le
  have hp : (s.map.map fun d : Descriptor => (d.phys.toNat, stop d)).Pairwise
      fun x y => x.2 ≤ y.1 ∨ y.2 ≤ x.1 := by
    rw [map_stops]
    cases s.settled <;> simp <;> omega
  exact List.pairwise_map.mp hp

section

variable {file : List UInt8} {s s' : Settling}

/-- The services that only look leave the firmware as it is. -/
theorem given_eq {α : Type} {a r : α} (h : (a, s) = (r, s')) : s'.given = s.given := by
  obtain ⟨-, rfl⟩ := Prod.ext_iff.mp h
  rfl

theorem read {f n status got : UInt64} {bytes : List UInt8}
    (h : (firmware file).readFile f n s = ((status, got, bytes), s')) :
    s'.given = s.given ∧ bytes.length ≤ n.toNat := by
  obtain ⟨hr, rfl⟩ := Prod.ext_iff.mp h
  obtain rfl := (Prod.ext_iff.mp (Prod.ext_iff.mp hr).2).2
  exact ⟨rfl, List.length_take_le _ _⟩

theorem allocated {n : ℕ} {status p : UInt64}
    (h : (firmware file).allocatePages n s = ((status, p), s')) (hok : isError status = false) :
    p.toNat % 4096 = 0 ∧ p.toNat + 4096 * n ≤ 2 ^ 52 ∧
      (∀ q ∈ pagesFrom p n, q ∉ s.given) ∧ s'.given = pagesFrom p n ∪ s.given := by
  simp only [firmware] at h
  split at h
  · next hroom =>
    obtain ⟨hr, rfl⟩ := Prod.ext_iff.mp h
    obtain ⟨-, rfl⟩ := Prod.ext_iff.mp hr
    have hnext := s.next_toNat
    dsimp only at hnext ⊢
    refine ⟨by omega, by omega, fun q hq hgiven => ?_, Set.ext fun q => ?_⟩
    · have hq := (mem_pagesFrom (by omega) (by omega)).mp hq
      have hg := mem_given.mp hgiven
      omega
    · rw [Set.mem_union, mem_pagesFrom (by omega) (by omega), mem_given, mem_given]
      dsimp only
      omega
  · have hstatus : errorBit ||| 9 = status := (Prod.ext_iff.mp (Prod.ext_iff.mp h).1).1
    rw [← hstatus] at hok
    exact absurd hok (by decide)

theorem refused {n : ℕ} {status p : UInt64}
    (h : (firmware file).allocatePages n s = ((status, p), s')) (herr : isError status = true) :
    s'.given = s.given := by
  simp only [firmware] at h
  split at h
  · have hstatus : Status.success = status := (Prod.ext_iff.mp (Prod.ext_iff.mp h).1).1
    rw [← hstatus] at herr
    exact absurd herr (by decide)
  · exact given_eq h

theorem mapped {n : UInt64} {r : MapReply} (h : (firmware file).getMemoryMap n s = (r, s')) :
    s'.given = s.given ∧ r.bytes.length ≤ n.toNat := by
  simp only [firmware] at h
  split at h
  · next hroom =>
    obtain ⟨rfl, rfl⟩ := Prod.ext_iff.mp h
    refine ⟨rfl, ?_⟩
    dsimp only
    rw [length_flatMap_encodeDescriptor]
    exact hroom
  · obtain ⟨rfl, rfl⟩ := Prod.ext_iff.mp h
    exact ⟨rfl, Nat.zero_le _⟩

theorem strided {n : UInt64} {r : MapReply} (h : (firmware file).getMemoryMap n s = (r, s')) :
    r.descriptorSize = 48 := by
  simp only [firmware] at h
  split at h <;> · obtain ⟨rfl, -⟩ := Prod.ext_iff.mp h; rfl

theorem described {n : UInt64} {r : MapReply} (h : (firmware file).getMemoryMap n s = (r, s'))
    (hok : isError r.status = false) :
    r.size.toNat = r.bytes.length ∧ r.key = s'.key ∧
      ∀ raw : Slice, raw.bytes = r.bytes → descriptors raw 48 = s'.map := by
  simp only [firmware] at h
  split at h
  · obtain ⟨rfl, rfl⟩ := Prod.ext_iff.mp h
    refine ⟨?_, rfl, fun raw hraw => descriptors_encode raw s.map hraw⟩
    dsimp only
    rw [length_flatMap_encodeDescriptor]
    rfl
  · have hr : _ = r := (Prod.ext_iff.mp h).1
    rw [← hr] at hok
    exact absurd hok (by simp [isError_bufferTooSmall])

theorem exited {k status : UInt64} (h : (firmware file).exitBootServices k s = (status, s')) :
    s'.given = s.given ∧ (status = Status.success → k = s'.key) := by
  simp only [firmware] at h
  split at h
  · next hkey =>
    obtain ⟨rfl, rfl⟩ := Prod.ext_iff.mp h
    exact ⟨rfl, fun _ => hkey.2⟩
  · obtain ⟨rfl, rfl⟩ := Prod.ext_iff.mp h
    have hstale : Status.invalidParameter ≠ Status.success := by decide
    exact ⟨rfl, fun hs => absurd hs hstale⟩

end

def contract (file : List UInt8) : Contract (firmware file) where
  given := given
  map := map
  key := key
  stride := 48
  stride_le := by decide
  keyed h := congrArg map (key_inj h)
  aligned h := (mem_given.mp h).1
  listed := listed
  stop_lt := stop_lt
  apart := apart
  locateGop := given_eq
  handleProtocol := given_eq
  openVolume := given_eq
  openFile := given_eq
  getInfo := given_eq
  readFile := read
  closeFile := given_eq
  allocated h hok _ := allocated h hok
  refused := refused
  mapped := mapped
  strided h _ := strided h
  described := described
  exited := exited

end Settling

end StarOs.Boot
