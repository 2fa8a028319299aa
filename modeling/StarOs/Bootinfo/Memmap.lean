import StarOs.Bootinfo.FreeRuns
import StarOs.Library.Slice

/-! The loader's walk of the raw UEFI memory map and the kernel's summary of what came of it.
The loader sizes its maps with a deny-list of raw types, the kernel its own with the converted
kinds; what the kernel counts as memory the loader counted too. -/

namespace StarOs.Bootinfo

open Library

def efiPageSize : ℕ := 4096

/-- `size_of::<MemoryDescriptor>()` -/
def memoryDescriptorSize : ℕ := 40

namespace MemoryType

def reserved : UInt32 := 0
def loaderCode : UInt32 := 1
def loaderData : UInt32 := 2
def bootServicesCode : UInt32 := 3
def bootServicesData : UInt32 := 4
def conventional : UInt32 := 7
def unusable : UInt32 := 8
def acpiReclaim : UInt32 := 9
def acpiNvs : UInt32 := 10
def mmio : UInt32 := 11
def mmioPort : UInt32 := 12
def palCode : UInt32 := 13
def persistent : UInt32 := 14

end MemoryType

inductive ConvertError where
  | badDescriptorSize
  | tooManyRegions (needed : ℕ)
  deriving DecidableEq

/-- `u64::saturating_mul` -/
def saturatingMul (a b : ℕ) : ℕ := min (a * b) u64Max

def classify (ty : UInt32) : MemoryKind :=
  if ty = MemoryType.conventional then .usable
  else if ty = MemoryType.acpiReclaim then .acpiReclaimable
  else if ty = MemoryType.acpiNvs then .acpiNvs
  else if ty = MemoryType.unusable then .badMemory
  else if ty = MemoryType.loaderCode ∨ ty = MemoryType.loaderData then .loaderReclaimable
  else if ty = MemoryType.bootServicesCode ∨ ty = MemoryType.bootServicesData then .reserved
  else if ty = MemoryType.persistent then .reserved
  else .reserved

/-- The fields the walks read of a descriptor. -/
structure Descriptor where
  ty : UInt32
  phys : UInt64
  pages : UInt64

def descriptorAt (map : Slice) (offset : ℕ) : Descriptor where
  ty := (fromLeBytes (map.sub offset (offset + 4)).bytes).toUInt32
  phys := fromLeBytes (map.sub (offset + 8) (offset + 16)).bytes
  pages := fromLeBytes (map.sub (offset + 24) (offset + 32)).bytes

/-- The descriptors both walks visit; a trailing partial one is not among them. -/
def descriptors (map : Slice) (descriptorSize : ℕ) : List Descriptor :=
  (List.range (map.length / descriptorSize)).map fun i => descriptorAt map (i * descriptorSize)

def Descriptor.len (d : Descriptor) : ℕ := saturatingMul d.pages.toNat efiPageSize

theorem le_u64Max (x : UInt64) : x.toNat ≤ u64Max := by
  have := x.toNat_lt
  unfold u64Max
  omega

/-- The region of a descriptor that is not empty. -/
def Descriptor.region (d : Descriptor) : MemoryRegion where
  start := d.phys.toNat
  len := d.len
  kind := classify d.ty
  start_le := le_u64Max d.phys
  len_le := Nat.min_le_right _ _

/-- `prev.len = prev.len.saturating_add(len)` -/
def MemoryRegion.extend (prev : MemoryRegion) (len : ℕ) : MemoryRegion :=
  { prev with len := saturatingAdd prev.len len, len_le := Nat.min_le_right _ _ }

/-- The loop of `convert`: what has been written to `out`, which has room for `capacity`. -/
def convertFrom (capacity : ℕ) : List Descriptor → List MemoryRegion →
    Except ConvertError (List MemoryRegion)
  | [], out => .ok out
  | d :: rest, out =>
    if d.len = 0 then convertFrom capacity rest out
    else
      let append := if out.length = capacity then
          .error (.tooManyRegions (out.length + 1 + rest.length))
        else convertFrom capacity rest (out ++ [d.region])
      match out.getLast? with
      | some prev =>
        if prev.kind = classify d.ty ∧ prev.endAddr = d.phys.toNat then
          convertFrom capacity rest (out.dropLast ++ [prev.extend d.len])
        else append
      | none => append

/-- `convert`; the regions it wrote stand for their number. -/
def convert (map : Slice) (descriptorSize capacity : ℕ) :
    Except ConvertError (List MemoryRegion) :=
  if descriptorSize < memoryDescriptorSize then .error .badDescriptorSize
  else convertFrom capacity (descriptors map descriptorSize) []

/-- The types whose ranges have no claim on the linear map. -/
def denied (ty : UInt32) : Bool :=
  ty = MemoryType.reserved || ty = MemoryType.mmio || ty = MemoryType.mmioPort ||
    ty = MemoryType.palCode

/-- The body of the loop of `highest_ram_address`. -/
def highestStep (hi : ℕ) (d : Descriptor) : ℕ :=
  if denied d.ty then hi
  else max hi (saturatingAdd d.phys.toNat d.len)

def highestRamAddress (map : Slice) (descriptorSize align : ℕ) : Except ConvertError ℕ :=
  if descriptorSize < memoryDescriptorSize then .error .badDescriptorSize
  else
    let hi := (descriptors map descriptorSize).foldl highestStep 0
    .ok ((checkedNextMultipleOf hi align).getD u64Max)

structure MemoryStats where
  usableBytes : ℕ := 0
  totalBytes : ℕ := 0
  largestUsable : Option (ℕ × ℕ) := none
  highestAddress : ℕ := 0
  highestRam : ℕ := 0

/-- The body of the loop of `summarise`. -/
def summariseStep (stats : MemoryStats) (r : MemoryRegion) : MemoryStats :=
  if r.len = 0 then stats
  else
    let stats := { stats with
      totalBytes := saturatingAdd stats.totalBytes r.len
      highestAddress := max stats.highestAddress r.endAddr }
    let stats :=
      if r.kind ≠ .reserved then { stats with highestRam := max stats.highestRam r.endAddr }
      else stats
    if r.kind.usableAtBoot then
      let better := match stats.largestUsable with
        | some (_, len) => decide (r.len > len)
        | none => true
      { stats with
        usableBytes := saturatingAdd stats.usableBytes r.len
        largestUsable := if better then some (r.start, r.len) else stats.largestUsable }
    else stats

def summarise (regions : List MemoryRegion) : MemoryStats := regions.foldl summariseStep {}

/-! ### What reaches how far -/

/-- Where the memory among these regions ends at most. -/
def RamBelow (hi : ℕ) (regions : List MemoryRegion) : Prop :=
  ∀ r ∈ regions, r.kind ≠ .reserved → r.endAddr ≤ hi

theorem classify_of_denied {ty : UInt32} (h : denied ty = true) : classify ty = .reserved := by
  simp only [denied, Bool.or_eq_true, decide_eq_true_eq] at h
  obtain ((rfl | rfl) | rfl) | rfl := h <;> decide

theorem le_highestStep (hi : ℕ) (d : Descriptor) : hi ≤ highestStep hi d := by
  unfold highestStep
  split
  · exact le_rfl
  · exact Nat.le_max_left _ _

/-- A region that grew by a range starting at its end ends where the range ends. -/
theorem endAddr_extend {prev : MemoryRegion} {start : ℕ} (h : prev.endAddr = start) (len : ℕ) :
    (prev.extend len).endAddr = saturatingAdd start len := by
  have hstart := prev.start_le
  simp only [MemoryRegion.endAddr, MemoryRegion.extend, saturatingAdd] at *
  omega

theorem RamBelow.mono {hi hi' : ℕ} {regions : List MemoryRegion} (h : RamBelow hi regions)
    (hle : hi ≤ hi') : RamBelow hi' regions := fun r hr hk => (h r hr hk).trans hle

theorem RamBelow.append {hi : ℕ} {regions : List MemoryRegion} (h : RamBelow hi regions)
    {r : MemoryRegion} (hr : r.kind ≠ .reserved → r.endAddr ≤ hi) :
    RamBelow hi (regions ++ [r]) := by
  intro r' hr'
  obtain hmem | hmem := List.mem_append.mp hr'
  · exact h r' hmem
  · rw [List.mem_singleton.mp hmem]
    exact hr

/-- What a descriptor adds ends where the loader's step reaches, if it is memory. -/
theorem end_le_highestStep (hi : ℕ) (d : Descriptor) (h : classify d.ty ≠ .reserved) :
    saturatingAdd d.phys.toNat d.len ≤ highestStep hi d := by
  rw [highestStep, if_neg (mt classify_of_denied h)]
  exact Nat.le_max_right _ _

theorem convertFrom_ramBelow {capacity : ℕ} {l : List Descriptor} {out regions : List MemoryRegion}
    {hi : ℕ} (hout : RamBelow hi out) (h : convertFrom capacity l out = .ok regions) :
    RamBelow (l.foldl highestStep hi) regions := by
  induction l generalizing out hi with
  | nil =>
    obtain rfl := Except.ok.inj h
    exact hout
  | cons d rest ih =>
    have hmore := hout.mono (le_highestStep hi d)
    have happend : (if out.length = capacity then
        .error (.tooManyRegions (out.length + 1 + rest.length))
        else convertFrom capacity rest (out ++ [d.region])) = .ok regions →
        RamBelow (rest.foldl highestStep (highestStep hi d)) regions := by
      intro h
      split at h
      · cases h
      · exact ih (hmore.append (end_le_highestStep hi d)) h
    rw [convertFrom] at h
    split at h
    · exact ih hmore h
    · dsimp only at h
      split at h
      · next prev hprev =>
        split at h
        · next hjoin =>
          refine ih (RamBelow.append (fun r hr => hmore r ((List.dropLast_sublist _).subset hr)) ?_) h
          intro hkind
          rw [endAddr_extend hjoin.2]
          exact end_le_highestStep hi d (hjoin.1 ▸ hkind)
        · exact happend h
      · exact happend h

theorem le_checkedNextMultipleOf {x n : ℕ} (hx : x ≤ u64Max) :
    x ≤ (checkedNextMultipleOf x n).getD u64Max := by
  unfold checkedNextMultipleOf checkedAdd
  split
  · exact hx
  · split
    · exact le_rfl
    · split
      · exact Nat.le_add_right _ _
      · exact hx

theorem highest_le_u64Max (l : List Descriptor) {hi : ℕ} (h : hi ≤ u64Max) :
    l.foldl highestStep hi ≤ u64Max := by
  induction l generalizing hi with
  | nil => exact h
  | cons d l ih =>
    refine ih ?_
    unfold highestStep
    split
    · exact h
    · exact Nat.max_le.mpr ⟨h, Nat.min_le_right _ _⟩

theorem summarise_highestRam_le {hi : ℕ} {regions : List MemoryRegion} (h : RamBelow hi regions) :
    (summarise regions).highestRam ≤ hi := by
  refine Loop.foldl_invariant (P := fun _ (stats : MemoryStats) => stats.highestRam ≤ hi) regions
    (Nat.zero_le _) ?_
  intro pre r hpre stats hstats
  have hmem : r ∈ regions := hpre.subset (by simp)
  unfold summariseStep
  split
  · exact hstats
  · dsimp only
    by_cases hk : r.kind = .reserved
    · rw [if_neg (not_not.mpr hk)]
      split
      · exact hstats
      · exact hstats
    · rw [if_pos hk]
      have hmax := Nat.max_le.mpr ⟨hstats, h r hmem hk⟩
      split
      · exact hmax
      · exact hmax

/-- Whatever the firmware's map, the kernel finds no memory above what the loader mapped. -/
theorem ram_within_mapped (map : Slice) (descriptorSize capacity align : ℕ)
    (regions : List MemoryRegion) (h : convert map descriptorSize capacity = .ok regions) :
    ∃ mapped, highestRamAddress map descriptorSize align = .ok mapped ∧
      (summarise regions).highestRam ≤ mapped ∧
      ∀ r ∈ regions, r.kind ≠ .reserved → r.endAddr ≤ mapped := by
  unfold convert at h
  split at h
  · cases h
  · next hsize =>
    rw [highestRamAddress, if_neg hsize]
    have hnil : RamBelow 0 [] := fun r hr => absurd hr List.not_mem_nil
    have hbelow := convertFrom_ramBelow hnil h
    have hround := le_checkedNextMultipleOf (n := align)
      (highest_le_u64Max (descriptors map descriptorSize) (Nat.zero_le u64Max))
    exact ⟨_, rfl, (summarise_highestRam_le hbelow).trans hround, hbelow.mono hround⟩

/-- Two descriptors of conventional memory that join, and a device window far above them. -/
def rawMap : Slice where
  bytes :=
    [7, 0, 0, 0, 0, 0, 0, 0, 0, 0, 16, 0, 0, 0, 0, 0, 0, 0, 0, 0, 0, 0, 0, 0, 2, 0, 0, 0, 0, 0, 0, 0,
      15, 0, 0, 0, 0, 0, 0, 0] ++
    [7, 0, 0, 0, 0, 0, 0, 0, 0, 32, 16, 0, 0, 0, 0, 0, 0, 0, 0, 0, 0, 0, 0, 0, 3, 0, 0, 0, 0, 0, 0, 0,
      15, 0, 0, 0, 0, 0, 0, 0] ++
    [0, 0, 0, 0, 0, 0, 0, 0, 0, 0, 0, 0, 253, 0, 0, 0, 0, 0, 0, 0, 0, 0, 0, 0, 1, 0, 0, 0, 0, 0, 0, 0,
      15, 0, 0, 0, 0, 0, 0, 0]
  length_le := by decide

theorem ram_within_mapped_joined :
    ∃ mapped, highestRamAddress rawMap 40 4096 = .ok mapped ∧ 0x105000 ≤ mapped := by
  have heval : (convert rawMap 40 8).toOption.map (fun l => (summarise l).highestRam) =
      some 0x105000 := by decide +kernel
  cases hconvert : convert rawMap 40 8 with
  | error err =>
    rw [hconvert] at heval
    cases heval
  | ok regions =>
    rw [hconvert] at heval
    obtain ⟨mapped, hmapped, hle, -⟩ := ram_within_mapped rawMap 40 8 4096 regions hconvert
    exact ⟨mapped, hmapped, Option.some.inj heval ▸ hle⟩

end StarOs.Bootinfo
