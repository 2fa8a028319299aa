import Mathlib.Data.Set.Basic
import StarOs.Paging.Entry

/-! The mapper: a four-level tree built and read through a source of table frames. Only
two things are abstract, where a table frame comes from and how its words are reached. -/

namespace StarOs.Paging

/-- `alloc_table`, and the reads and writes through the pointer `table` returns. -/
structure FrameSource (σ : Type) where
  allocTable : σ → Option UInt64 × σ
  read : σ → UInt64 → ℕ → UInt64
  write : σ → UInt64 → ℕ → UInt64 → σ

/-- What the trait asks of its implementors: `owned` are the frames handed out so far, a
new one is zeroed, page-aligned and nobody's, and only a write changes the words. -/
structure FrameSource.Lawful {σ : Type} (F : FrameSource σ) (owned : σ → Set UInt64) : Prop where
  alloc : ∀ s p s', F.allocTable s = (some p, s') →
    p.toNat % 4096 = 0 ∧ p.toNat < 2 ^ 52 ∧ p ∉ owned s ∧ owned s' = insert p (owned s) ∧
      (∀ i < 512, F.read s' p i = 0) ∧ ∀ t ∈ owned s, ∀ i < 512, F.read s' t i = F.read s t i
  exhausted : ∀ s s', F.allocTable s = (none, s') →
    owned s' = owned s ∧ ∀ t ∈ owned s, ∀ i < 512, F.read s' t i = F.read s t i
  write : ∀ s t i e, t ∈ owned s → i < 512 → owned (F.write s t i e) = owned s ∧
    ∀ u ∈ owned s, ∀ j < 512,
      F.read (F.write s t i e) u j = if u = t ∧ j = i then e else F.read s u j

structure Translation where
  phys : UInt64
  rights : Rights
  memoryType : MemoryType
  pageSize : UInt64
  deriving DecidableEq

structure Mapper where
  root : UInt64
  gibPages : Bool

section

variable {σ : Type} (F : FrameSource σ)

def nextTable (table : UInt64) (idx : ℕ) (needed : Rights) (s : σ) : Except MapError UInt64 × σ :=
  let entry := F.read s table idx
  if present entry then
    if huge entry then (.error .largePageCollision, s)
    else
      let widened := entry ||| intermediateBits needed
      let s := if widened != entry then F.write s table idx widened else s
      (.ok (entry &&& pteAddrMask), s)
  else
    match F.allocTable s with
    | (none, s) => (.error .outOfFrames, s)
    | (some page, s) => (.ok page, F.write s table idx (page ||| intermediateBits needed))

/-- The loop of `map_leaf` with `n` levels still to go down, and the store after it. -/
def mapLeafFrom (virt : UInt64) (rights : Rights) (level : ℕ) (bits : UInt64) :
    ℕ → UInt64 → σ → Except MapError Unit × σ
  | 0, table, s => (.ok (), F.write s table (index virt level) bits)
  | n + 1, table, s =>
    match nextTable F table (index virt (level + n + 1)) rights s with
    | (.error e, s) => (.error e, s)
    | (.ok table, s) => mapLeafFrom virt rights level bits n table s

def leafEntry (phys : UInt64) (rights : Rights) (memoryType : MemoryType) (level : ℕ) : UInt64 :=
  phys ||| rights.leafBits ||| memoryType.leafBits ||| if level > 0 then pteHuge else 0

namespace Mapper

def new (gibPages : Bool) (s : σ) : Except MapError Mapper × σ :=
  match F.allocTable s with
  | (none, s) => (.error .outOfFrames, s)
  | (some root, s) => (.ok ⟨root, gibPages⟩, s)

def adopt (root : UInt64) (gibPages : Bool) : Mapper := ⟨root, gibPages⟩

variable (m : Mapper)

def mapLeaf (virt phys : UInt64) (rights : Rights) (memoryType : MemoryType) (level : ℕ) (s : σ) :
    Except MapError Unit × σ :=
  mapLeafFrom F virt rights level (leafEntry phys rights memoryType level) (3 - level) m.root s

/-- The level of the largest page that can be placed. -/
def stepLevel (virt phys left : UInt64) : ℕ :=
  if m.gibPages && fits virt phys left size1G then 2
  else if fits virt phys left size2M then 1
  else 0

/-- The loop of `map_as`, for at most `n` pages. -/
def mapLoop (virt phys size : UInt64) (rights : Rights) (memoryType : MemoryType) :
    ℕ → UInt64 → σ → Except MapError Unit × σ
  | 0, _, s => (.ok (), s)
  | n + 1, done, s =>
    if done < size then
      let level := m.stepLevel (virt + done) (phys + done) (size - done)
      match m.mapLeaf F (virt + done) (phys + done) rights memoryType level s with
      | (.error e, s) => (.error e, s)
      | (.ok (), s) => mapLoop virt phys size rights memoryType n (done + levelSize level) s
    else (.ok (), s)

def mapAs (virt phys size : UInt64) (rights : Rights) (memoryType : MemoryType) (s : σ) :
    Except MapError Unit × σ :=
  if !isMultipleOf virt pageSize || !isMultipleOf phys pageSize || !isMultipleOf size pageSize then
    (.error .misaligned, s)
  else m.mapLoop F virt phys size rights memoryType (size.toNat / 4096) 0 s

def map (virt phys size : UInt64) (rights : Rights) (s : σ) : Except MapError Unit × σ :=
  m.mapAs F virt phys size rights .normal s

def mapDevice (virt phys size : UInt64) (rights : Rights) (s : σ) : Except MapError Unit × σ :=
  m.mapAs F virt phys size rights .device s

/-- The walk of `translate` with `n` levels left. -/
def translateFrom (virt : UInt64) (s : σ) : ℕ → UInt64 → Rights → Option Translation
  | 0, _, _ => none
  | level + 1, table, effective =>
    let entry := F.read s table (index virt level)
    if !present entry then none
    else
      let effective := effective.intersect (Rights.fromBits entry)
      if level == 0 || huge entry then
        let size := levelSize level
        some {
          phys := (entry &&& pteAddrMask &&& ~~~(size - 1)) + (virt &&& (size - 1))
          rights := effective
          memoryType := MemoryType.fromBits entry
          pageSize := size }
      else translateFrom virt s level (entry &&& pteAddrMask) effective

def translate (virt : UInt64) (s : σ) : Option Translation :=
  translateFrom F virt s 4 m.root ⟨true, true, true⟩

/-- The walk of `unmap` with `n` levels left, to the leaf it clears. -/
def unmapFrom (virt : UInt64) (s : σ) : ℕ → UInt64 → Option σ
  | 0, _ => none
  | level + 1, table =>
    let entry := F.read s table (index virt level)
    if level == 0 || huge entry then some (F.write s table (index virt level) 0)
    else unmapFrom virt s level (entry &&& pteAddrMask)

def unmap (virt : UInt64) (s : σ) : Option Translation × σ :=
  match m.translate F virt s with
  | none => (none, s)
  | some existing =>
    match unmapFrom F virt s 4 m.root with
    | none => (none, s)
    | some s => (some existing, s)

end Mapper

end

end StarOs.Paging
