import StarOs.Kernel.AddressSpace
import StarOs.Paging.Footprint

/-! Mappings made in the kernel's live tree: the window for device registers, identity mappings
for a waking core, and the page of the SMAP self-test. -/

namespace StarOs.Kernel

open Library Library.Loop Paging

def deviceBase : UInt64 := 0xFFFF900000000000

theorem toNat_deviceBase : deviceBase.toNat = 2 ^ 64 - 2 ^ 47 + 2 ^ 44 := rfl

def deviceWindow : UInt64 := (1 : UInt64) <<< 30

def smapTestAddr : UInt64 := 0x0000000010000000

/-- The mapper over the kernel's own tree. -/
def Tables.mapper (tables : Tables) : Mapper := Mapper.adopt tables.root tables.gibPages

section

variable {σ : Type} (P : FramePool σ) (tables : Tables)

def mapIdentity (phys len : UInt64) (rights : Rights) (m : Mem σ) : Except String Unit × Mem σ :=
  let span := nextMultipleOf len pageSize
  match tables.mapper.map (kernelFrames P) phys phys span rights m with
  | (.error e, m) => (.error e.asStr, m)
  | (.ok (), m) => (.ok (), m)

def unmapIdentity (phys len : UInt64) (m : Mem σ) : Mem σ :=
  let span := nextMultipleOf len pageSize
  forRange (span.toNat / 4096) (fun m page =>
    (tables.mapper.unmap (kernelFrames P) (phys + UInt64.ofNat (page * 4096)) m).2) m

/-- The bytes of the window that registers at `phys` take. -/
def deviceSpan (phys len : UInt64) : UInt64 :=
  nextMultipleOf (len + (phys &&& (pageSize - 1))) pageSize

/-- `next` is `DEVICE_NEXT`, which is returned as it is left. -/
def mapDevice (phys len next : UInt64) (m : Mem σ) : Except String UInt64 × UInt64 × Mem σ :=
  let offset := phys &&& (pageSize - 1)
  let base := phys - offset
  let span := deviceSpan phys len
  if next + span > deviceWindow then (.error "the device window is full", next + span, m)
  else
    let virt := deviceBase + next
    match tables.mapper.mapDevice (kernelFrames P) virt base span Rights.rw m with
    | (.error e, m) => (.error e.asStr, next + span, m)
    | (.ok (), m) => (.ok (virt + offset), next + span, m)

def smapSentinel : UInt64 := 0xC0FFEE0012345678

def smapIntruder : UInt64 := 0xDEADBEEFDEADBEEF

/-- `selftest_smap` up to the store through the page, which it leaves mapped. -/
def smapMap (m : Mem σ) : Option UInt64 × Mem σ :=
  match allocFrame P m with
  | (none, m) => (none, m)
  | (some frame, m) =>
    let m := m.write P frame 0 smapSentinel
    match tables.mapper.map (kernelFrames P) smapTestAddr frame pageSize Rights.rw.toUser m with
    | (.error _, m) => (none, freeFrame P frame m)
    | (.ok (), m) => (some frame, m)

/-- The rest of `selftest_smap`. -/
def smapUnmap (frame : UInt64) (m : Mem σ) : Mem σ :=
  let m := m.write P frame 0 smapIntruder
  freeFrame P frame (tables.mapper.unmap (kernelFrames P) smapTestAddr m).2

end

/-- The tables of the kernel's tree. -/
def kernelTables {σ : Type} (P : FramePool σ) (tables : Tables) (m : Mem σ) : List UInt64 :=
  (tree true).tables (m.read P) 4 (rootEntry tables.root)

/-- The kernel's tree is in order. -/
def KernelOk {σ : Type} (P : FramePool σ) (held : σ → Set UInt64) (tables : Tables) (m : Mem σ) :
    Prop := Sound (kernelFrames P) (heldBy held) tables.mapper m

/-- The kernel's tree grew from `m` to `m'`. -/
def KernelGrew {σ : Type} (P : FramePool σ) (held : σ → Set UInt64) (tables : Tables)
    (m m' : Mem σ) (made : List UInt64) : Prop :=
  Extends (kernelFrames P) (heldBy held) tables.root m m' made

section

variable {σ : Type} {P : FramePool σ} {held : σ → Set UInt64} {tables : Tables} {m m' : Mem σ}
  {phys len next : UInt64} {rights : Rights}

/-- A tree of the kernel is in order, and has its tables, while nothing is stored to them. -/
theorem KernelOk.congr (h : KernelOk P held tables m)
    (hread : ∀ q ∈ kernelTables P tables m,
      q ∈ held m'.pool ∧ ∀ i < 512, m'.read P q i = m.read P q i) :
    KernelOk P held tables m' ∧ kernelTables P tables m' = kernelTables P tables m :=
  ⟨Sound.congr h hread, TableTree.cells_congr fun q hq => (hread q hq).2⟩

theorem mapIdentity_spec (hP : P.Lawful held) (hk : KernelOk P held tables m)
    {res : Except String Unit} (h : mapIdentity P tables phys len rights m = (res, m')) :
    KernelOk P held tables m' ∧ (∃ made, KernelGrew P held tables m m' made) ∧
      ∀ i < 512, Kept (kernelFrames P) tables.root phys (nextMultipleOf len pageSize) rights m i →
        m'.read P tables.root i = m.read P tables.root i := by
  have hL := kernelFrames_lawful hP
  unfold mapIdentity Mapper.map at h
  dsimp only at h
  cases hmap : tables.mapper.mapAs (kernelFrames P) phys phys (nextMultipleOf len pageSize) rights
      .normal m with
  | mk out m₁ =>
    rw [hmap] at h
    obtain rfl : m₁ = m' := by cases out <;> exact (Prod.ext_iff.mp h).2
    obtain ⟨made, hext, hkept⟩ := hk.mapAs_footprint hL hmap
    exact ⟨hk.mapAs hL hmap, ⟨made, hext⟩, hkept⟩

theorem mapDevice_spec (hP : P.Lawful held) (hk : KernelOk P held tables m)
    {res : Except String UInt64} {next' : UInt64}
    (h : mapDevice P tables phys len next m = (res, next', m')) :
    KernelOk P held tables m' ∧ (∃ made, KernelGrew P held tables m m' made) ∧
      ∀ i < 512, (¬next + deviceSpan phys len > deviceWindow → Kept (kernelFrames P) tables.root
        (deviceBase + next) (deviceSpan phys len) Rights.rw m i) →
          m'.read P tables.root i = m.read P tables.root i := by
  have hL := kernelFrames_lawful hP
  unfold mapDevice Mapper.mapDevice at h
  dsimp only at h
  split at h
  · obtain rfl : m = m' := (Prod.ext_iff.mp (Prod.ext_iff.mp h).2).2
    exact ⟨hk, ⟨[], Extends.refl⟩, fun _ _ _ => rfl⟩
  · next hfits =>
    cases hmap : tables.mapper.mapAs (kernelFrames P) (deviceBase + next)
        (phys - (phys &&& (pageSize - 1))) (deviceSpan phys len) Rights.rw .device m with
    | mk out m₁ =>
      rw [hmap] at h
      obtain rfl : m₁ = m' := by cases out <;> exact (Prod.ext_iff.mp (Prod.ext_iff.mp h).2).2
      obtain ⟨made, hext, hkept⟩ := hk.mapAs_footprint hL hmap
      exact ⟨hk.mapAs hL hmap, ⟨made, hext⟩, fun i hi hkeep => hkept i hi (hkeep hfits)⟩

theorem unmap_spec (hP : P.Lawful held) (hk : KernelOk P held tables m) (v : UInt64) :
    let m' := (tables.mapper.unmap (kernelFrames P) v m).2
    KernelOk P held tables m' ∧ KernelGrew P held tables m m' [] ∧
      ∀ i < 512, m'.read P tables.root i = m.read P tables.root i := by
  have hL := kernelFrames_lawful hP
  obtain ⟨hext, hroot⟩ := hk.unmap_footprint hL v
  exact ⟨(hk.unmap hL v).2.1, hext, hroot⟩

theorem unmapIdentity_spec (hP : P.Lawful held) (hk : KernelOk P held tables m) :
    let m' := unmapIdentity P tables phys len m
    KernelOk P held tables m' ∧ KernelGrew P held tables m m' [] ∧
      ∀ i < 512, m'.read P tables.root i = m.read P tables.root i := by
  refine forRange_invariant (P := fun _ m₁ => KernelOk P held tables m₁ ∧
    KernelGrew P held tables m m₁ [] ∧
      ∀ i < 512, m₁.read P tables.root i = m.read P tables.root i)
    ⟨hk, Extends.refl, fun _ _ => rfl⟩ ?_
  rintro page - m₁ ⟨hk₁, hgrew, hroot⟩
  obtain ⟨hk₂, hgrew', hroot'⟩ := unmap_spec hP hk₁ (phys + UInt64.ofNat (page * 4096))
  exact ⟨hk₂, hgrew.trans hgrew', fun i hi => (hroot' i hi).trans (hroot i hi)⟩

end

end StarOs.Kernel
