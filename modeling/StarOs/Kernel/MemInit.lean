import Mathlib.Algebra.Order.BigOperators.Group.List
import StarOs.Bootinfo.FreeRunsStarts
import StarOs.Bootinfo.Memmap

/-! Taking ownership of physical memory. The free runs are carved out of the map, the heap is
cut off the front of the largest, and the rest goes to the frame pool. -/

namespace StarOs.Kernel

open Bootinfo Library

namespace MemInit

def maxRegions : ℕ := 256

def heapSlack : ℕ := 1024 * 1024

def maxFreeRuns : ℕ := 96

/-- `size_of::<MemoryRegion>()` -/
def memoryRegionSize : ℕ := 24

/-- `size_of::<BootInfo>()` -/
def bootInfoSize : ℕ := 96

/-- The hand-off, as far as `init` reads it. -/
structure BootInfo where
  memoryMapLen : UInt32
  memoryMap : UInt64
  initrd : UInt64
  initrdLen : UInt64
  kernelPhys : UInt64
  kernelLen : UInt64

/-- `initrd`, as `(phys, len)` -/
def BootInfo.initrdSpan (info : BootInfo) : Option Span :=
  if info.initrd ≠ 0 ∧ info.initrdLen ≠ 0 then some (info.initrd.toNat, info.initrdLen.toNat)
  else none

/-- A hand-off with the map it points to. -/
structure HandOff where
  info : BootInfo
  map : List MemoryRegion
  map_length : map.length = info.memoryMapLen.toNat

inductive Error where
  | mapTooLarge | noFreeRun | tooSmall | poolRejected
  deriving DecidableEq

def Error.asStr : Error → String
  | mapTooLarge => "firmware memory map has more entries than the kernel can hold"
  | noFreeRun => "no usable memory left after excluding the kernel and its data"
  | tooSmall => "largest free run cannot hold the kernel heap"
  | poolRejected => "frame allocator refused the pool"

/-- What `init` asks of the frame pool. -/
structure PoolApi (π : Type) where
  metadataBytesFor : List Span → ℕ
  new : π
  add : π → Span → Option π
  frames : π → ℕ
  trees : π → ℕ

structure Layout where
  total : ℕ
  usable : ℕ
  highest : ℕ
  highestRam : ℕ
  heap : Span
  poolRuns : ℕ
  poolTrees : ℕ
  poolBytes : ℕ
  truncatedRuns : ℕ
  managedFrames : ℕ

/-- What `init` leaves: the region `heap::init` was called with, by its physical address, the
runs the pool was given, the pool and the report. -/
structure Taken (π : Type) where
  heap : Span
  added : List Span
  pool : π
  layout : Layout

/-- The four things that live inside memory the firmware calls usable. -/
def exclusions (info : BootInfo) (infoPhys : UInt64) : List Span :=
  [(info.kernelPhys.toNat, info.kernelLen.toNat),
    (info.memoryMap.toNat, info.memoryMapLen.toNat * memoryRegionSize),
    (infoPhys.toNat, bootInfoSize),
    info.initrdSpan.getD (0, 0)]

/-- `next_multiple_of(PAGE_SIZE)` on the machine word. -/
def nextPage (x : ℕ) : ℕ :=
  if x % 4096 = 0 then x else (x + (4096 - x % 4096)) % 2 ^ 64

/-- The index of the longest run, the last of several: `max_by_key`. -/
def biggest (runs : List Span) : Option ℕ :=
  (List.range runs.length).foldl (fun best i =>
    match best with
    | none => some i
    | some j => if (runs.getD j (0, 0)).2 ≤ (runs.getD i (0, 0)).2 then some i else some j) none

section

variable {π : Type} (P : PoolApi π)

def addAll : List Span → π → Except Error π
  | [], pool => .ok pool
  | run :: runs, pool =>
    match P.add pool run with
    | none => .error .poolRejected
    | some pool => addAll runs pool

/-- `trees + HEAP_SLACK`, in whole pages. -/
def heapLen (runs : List Span) : ℕ := nextPage ((P.metadataBytesFor runs + heapSlack) % 2 ^ 64)

def init (h : HandOff) (infoPhys : UInt64) : Except Error (Taken π) :=
  let count := h.info.memoryMapLen.toNat
  if count > maxRegions then .error .mapTooLarge
  else
    let stats := summarise h.map
    let found := freeRuns h.map (exclusions h.info infoPhys) (List.replicate maxFreeRuns (0, 0))
    let kept := min found.1 found.2.length
    if kept = 0 then .error .noFreeRun
    else
      let runs := found.2.take kept
      let heapLen := heapLen P runs
      match biggest runs with
      | none => .error .noFreeRun
      | some i =>
        let run := runs.getD i (0, 0)
        if run.2 ≤ heapLen then .error .tooSmall
        else
          let runs := runs.set i (run.1 + heapLen, run.2 - heapLen)
          match addAll P runs P.new with
          | .error e => .error e
          | .ok pool => .ok {
              heap := (run.1, heapLen)
              added := runs
              pool := pool
              layout := {
                total := stats.totalBytes
                usable := stats.usableBytes
                highest := stats.highestAddress
                highestRam := stats.highestRam
                heap := (run.1, heapLen)
                poolRuns := kept
                poolTrees := P.trees pool
                poolBytes := (runs.map Prod.snd).sum
                truncatedRuns := found.1 - kept
                managedFrames := P.frames pool } }

/-! ### What is handed over -/

theorem biggest_lt {runs : List Span} {i : ℕ} (h : biggest runs = some i) : i < runs.length := by
  have hbest := Loop.foldl_invariant
    (P := fun _ best => ∀ j, best = some j → j < runs.length) (List.range runs.length)
    (f := fun best i =>
      match best with
      | none => some i
      | some j => if (runs.getD j (0, 0)).2 ≤ (runs.getD i (0, 0)).2 then some i else some j)
    (s := none) (fun j hj => nomatch hj) fun pre k hpre best hbest j hj => by
      have hk : k < runs.length := List.mem_range.mp (hpre.subset (by simp))
      split at hj
      · exact Option.some.inj hj ▸ hk
      · next l =>
        split at hj
        · exact Option.some.inj hj ▸ hk
        · exact Option.some.inj hj ▸ hbest l rfl
  exact hbest i h

theorem nextPage_spec {x : ℕ} (hpos : 0 < x) (hx : x + 4096 ≤ 2 ^ 64) :
    0 < nextPage x ∧ nextPage x % 4096 = 0 := by
  unfold nextPage
  split
  · next h => exact ⟨hpos, h⟩
  · rw [Nat.mod_eq_of_lt (by omega)]
    omega

theorem heapLen_spec {P : PoolApi π} {runs : List Span}
    (h : P.metadataBytesFor runs + heapSlack + 4096 ≤ 2 ^ 64) :
    0 < heapLen P runs ∧ heapLen P runs % 4096 = 0 := by
  rw [heapLen, Nat.mod_eq_of_lt (by omega)]
  exact nextPage_spec (by rw [heapSlack]; omega) h

/-- The usable regions decide what is free. -/
theorem usable_usable (regions : List MemoryRegion) : usable (usable regions) = usable regions := by
  simp only [usable, List.filter_filter, Bool.and_self]

/-- A run without its front. -/
theorem free_rest {regions : List MemoryRegion} {exclusions : List Span} {run : Span} {k : ℕ}
    (h : Free regions exclusions run) (hk : k < run.2) :
    Free regions exclusions (run.1 + k, run.2 - k) := by
  obtain ⟨-, ⟨r, hr, hu, hlo, hhi⟩, hclear⟩ := h
  refine ⟨by dsimp only; omega, ⟨r, hr, hu, by dsimp only; omega, by dsimp only; omega⟩, ?_⟩
  intro ex hex a hlo hhi
  dsimp only at hlo hhi
  exact hclear ex hex a (by omega) (by omega)

theorem free_front {regions : List MemoryRegion} {exclusions : List Span} {run : Span} {k : ℕ}
    (h : Free regions exclusions run) (hpos : 0 < k) (hk : k < run.2) :
    Free regions exclusions (run.1, k) := by
  obtain ⟨-, ⟨r, hr, hu, hlo, hhi⟩, hclear⟩ := h
  refine ⟨hpos, ⟨r, hr, hu, hlo, by dsimp only; omega⟩, ?_⟩
  intro ex hex a hlo hhi
  dsimp only at hlo hhi
  exact hclear ex hex a hlo (by omega)

/-- Runs that share no address. -/
def Apart (x y : Span) : Prop := ∀ a, ¬(spans a x = true ∧ spans a y = true)

theorem spans_iff {a : ℕ} {run : Span} : spans a run = true ↔ run.1 ≤ a ∧ a < run.1 + run.2 := by
  simp [spans]

theorem Apart.mono {x y x' y' : Span} (h : Apart x y) (hx : ∀ a, spans a x' = true → spans a x = true)
    (hy : ∀ a, spans a y' = true → spans a y = true) : Apart x' y' :=
  fun a ha => h a ⟨hx a ha.1, hy a ha.2⟩

/-- Cutting the front off one run of a list of runs that share no address. -/
theorem apart_cut {pre post : List Span} {run : Span} {k : ℕ}
    (h : (pre ++ run :: post).Pairwise Apart) (hk : k < run.2) :
    (pre ++ (run.1 + k, run.2 - k) :: post).Pairwise Apart ∧
      ∀ other ∈ pre ++ (run.1 + k, run.2 - k) :: post, Apart (run.1, k) other := by
  have hrest : ∀ a, spans a (run.1 + k, run.2 - k) = true → spans a run = true := by
    intro a ha
    rw [spans_iff] at ha ⊢
    dsimp only at ha
    omega
  have hfront : ∀ a, spans a (run.1, k) = true → spans a run = true := by
    intro a ha
    rw [spans_iff] at ha ⊢
    dsimp only at ha
    omega
  obtain ⟨hpre, hpost, hcross⟩ := List.pairwise_append.mp h
  obtain ⟨hrun, hpost⟩ := List.pairwise_cons.mp hpost
  constructor
  · refine List.pairwise_append.mpr ⟨hpre, List.pairwise_cons.mpr ⟨?_, hpost⟩, ?_⟩
    · exact fun y hy => (hrun y hy).mono hrest fun _ => id
    · intro x hx y hy
      obtain rfl | hy := List.mem_cons.mp hy
      · exact (hcross x hx run List.mem_cons_self).mono (fun _ => id) hrest
      · exact hcross x hx y (List.mem_cons_of_mem run hy)
  · intro y hy
    rw [List.mem_append, List.mem_cons] at hy
    rcases hy with hy | rfl | hy
    · exact fun a ha => (hcross y hy run List.mem_cons_self) a ⟨ha.2, hfront a ha.1⟩
    · intro a ha
      simp only [spans_iff] at ha
      omega
    · exact (hrun y hy).mono hfront fun _ => id

/-- What a success says about the runs found. -/
theorem init_ok {P : PoolApi π} {h : HandOff} {infoPhys : UInt64} {out : Taken π}
    (hinit : init P h infoPhys = .ok out) :
    let found := freeRuns h.map (exclusions h.info infoPhys) (List.replicate maxFreeRuns (0, 0))
    let runs := found.2.take (min found.1 found.2.length)
    ∃ i, biggest runs = some i ∧ heapLen P runs < (runs.getD i (0, 0)).2 ∧
      out.heap = ((runs.getD i (0, 0)).1, heapLen P runs) ∧
      out.added = runs.set i ((runs.getD i (0, 0)).1 + heapLen P runs,
        (runs.getD i (0, 0)).2 - heapLen P runs) ∧
      out.layout.truncatedRuns = found.1 - min found.1 found.2.length := by
  unfold init at hinit
  generalize freeRuns h.map (exclusions h.info infoPhys) (List.replicate maxFreeRuns (0, 0)) = found
    at hinit
  intro runs
  dsimp only at hinit
  split at hinit
  · cases hinit
  · split at hinit
    · cases hinit
    · split at hinit
      · cases hinit
      · next i hi =>
        split at hinit
        · cases hinit
        · next hbig =>
          split at hinit
          · cases hinit
          · obtain rfl := Except.ok.inj hinit
            exact ⟨i, hi, Nat.lt_of_not_le hbig, rfl, rfl, rfl⟩

/-- A list around one of its entries. -/
theorem split_at {runs : List Span} {i : ℕ} (hi : i < runs.length) :
    ∃ pre run post, runs = pre ++ run :: post ∧ runs.getD i (0, 0) = run ∧
      ∀ x, runs.set i x = pre ++ x :: post := by
  refine ⟨runs.take i, runs[i], runs.drop (i + 1), ?_, ?_, fun x => ?_⟩
  · rw [List.getElem_cons_drop, List.take_append_drop]
  · rw [List.getD_eq_getElem?_getD, List.getElem?_eq_getElem hi, Option.getD_some]
  · rw [List.set_eq_take_append_cons_drop, if_pos hi]

/-- Memory is handed over once. Whatever the hand-off's four exclusions are, the heap and the
runs of the pool are free memory, share no address, and are all of it. The pool's bill for
the runs of one memory is assumed not to overflow. -/
theorem memory_handed_over (P : PoolApi π)
    (hmeta : ∀ runs : List Span, runs.length ≤ maxFreeRuns →
      (∀ run ∈ runs, run.1 + run.2 ≤ u64Max) → P.metadataBytesFor runs + heapSlack + 4096 ≤ 2 ^ 64)
    (h : HandOff) (infoPhys : UInt64) (hcount : (usable h.map).length ≤ 92)
    (haligned : ∀ r ∈ usable h.map, r.start % 4096 = 0 ∧ r.len % 4096 = 0)
    (hdisjoint : DisjointRegions (usable h.map)) (out : Taken π)
    (hinit : init P h infoPhys = .ok out) :
    (0 < out.heap.2 ∧ out.heap.2 % 4096 = 0) ∧
    Free h.map (exclusions h.info infoPhys) out.heap ∧
    (∀ run ∈ out.added, Apart out.heap run) ∧
    ((∀ ex ∈ exclusions h.info infoPhys, Cuts h.map ex → saturatingAdd ex.1 ex.2 % 4096 = 0) →
      out.heap.1 % 4096 = 0) ∧
    out.added.Pairwise Apart ∧
    (∀ run ∈ out.added, Free h.map (exclusions h.info infoPhys) run) ∧
    out.layout.truncatedRuns = 0 ∧
    out.heap.2 + (out.added.map Prod.snd).sum =
      Set.ncard {a | FreeAddress h.map (exclusions h.info infoPhys) a} := by
  set exs := exclusions h.info infoPhys with hexs
  set slots := List.replicate maxFreeRuns ((0, 0) : Span) with hslots
  have hlen : slots.length = 96 := List.length_replicate
  have hroom : (usable h.map).length ≤ slots.length := by omega
  have hexcount : exs.length = 4 := rfl
  have hsmall : NeverFull (usable h.map) exs slots := by
    refine (neverFull_of_slots hdisjoint ?_).1
    rw [usable_usable]
    omega
  have hfull : NeverFull h.map exs slots := by
    simpa only [NeverFull, carveAll, seed, usable_usable] using hsmall
  have happart : (written h.map exs slots).Pairwise Apart := by
    refine pairwise_of_countP_le_one fun a => ?_
    rw [written_holders hroom]
    simpa only [carveAll, seed, usable_usable] using carveAll_single hdisjoint hsmall a
  have hfound : (freeRuns h.map exs slots).1 = (written h.map exs slots).length :=
    (written_eq hroom).1
  -- every run found was written
  have hfits : (freeRuns h.map exs slots).1 ≤ (freeRuns h.map exs slots).2.length := by
    rw [hfound, written, List.length_take]
    exact Nat.min_le_right _ _
  obtain ⟨i, hi, hbig, hheap, hadded, htrunc⟩ := init_ok hinit
  rw [← hexs, ← hslots, Nat.min_eq_left hfits] at hi hbig hheap hadded htrunc
  change biggest (written h.map exs slots) = some i at hi
  change heapLen P (written h.map exs slots) < ((written h.map exs slots).getD i (0, 0)).2 at hbig
  change out.heap = (((written h.map exs slots).getD i (0, 0)).1,
    heapLen P (written h.map exs slots)) at hheap
  change out.added = (written h.map exs slots).set i
    (((written h.map exs slots).getD i (0, 0)).1 + heapLen P (written h.map exs slots),
      ((written h.map exs slots).getD i (0, 0)).2 - heapLen P (written h.map exs slots)) at hadded
  have hfree := fun run (hrun : run ∈ written h.map exs slots) => written_free hroom hrun
  have hstart := fun run (hrun : run ∈ written h.map exs slots) => written_start hroom hrun
  have hwlen : (written h.map exs slots).length ≤ maxFreeRuns := by
    have hlive := (carveAll_carved h.map exs slots).live_le
    rw [(written_eq hroom).2, List.length_map]
    refine (List.length_filter_le _ _).trans ?_
    rw [List.length_take, maxFreeRuns]
    omega
  obtain ⟨hpos, hpages⟩ := heapLen_spec (hmeta (written h.map exs slots) hwlen fun run hrun => by
    obtain ⟨-, ⟨r, -, -, -, hhi⟩, -⟩ := hfree run hrun
    exact hhi.trans (endAddr_le r))
  have hsum : ((written h.map exs slots).map Prod.snd).sum =
      Set.ncard {a | FreeAddress h.map exs a} := by
    have hset : {a | ∃ run ∈ written h.map exs slots, spans a run = true} =
        {a | FreeAddress h.map exs a} := Set.ext fun a => written_covers hfull a
    rw [(sum_eq_ncard happart).1, hset]
  generalize written h.map exs slots = runs at *
  generalize heapLen P runs = k at *
  obtain ⟨pre, run, post, rfl, hrun⟩ := split_at (biggest_lt hi)
  rw [hrun.1] at hbig hheap hadded
  rw [hrun.2] at hadded
  obtain ⟨hcut, hfront⟩ := apart_cut happart hbig
  have hmem : run ∈ pre ++ run :: post := by simp
  rw [hheap, hadded]
  refine ⟨⟨hpos, hpages⟩, free_front (hfree run hmem) hpos hbig, hfront, fun hends => ?_, hcut,
    fun other hother => ?_, by rw [htrunc, Nat.sub_self], ?_⟩
  · obtain ⟨r, hr, hstart⟩ | ⟨ex, hex, hcuts, hstart⟩ := hstart run hmem
    · exact hstart ▸ (haligned r hr).1
    · exact hstart ▸ hends ex hex hcuts
  · rw [List.mem_append, List.mem_cons] at hother
    rcases hother with hother | rfl | hother
    · exact hfree other (List.mem_append_left _ hother)
    · exact free_rest (hfree run hmem) hbig
    · exact hfree other (by simp [hother])
  · rw [← hsum]
    simp only [List.map_append, List.map_cons, List.sum_append, List.sum_cons]
    omega

end

/-- A pool that bills eight bytes a frame and keeps the runs it is given. -/
def listPool : PoolApi (List Span) where
  metadataBytesFor runs := 8 * ((runs.map Prod.snd).sum / 4096)
  new := []
  add pool run := some (pool ++ [run])
  frames pool := (pool.map Prod.snd).sum / 4096
  trees pool := pool.length

/-- Two regions either side of a hole, with the kernel in the first. -/
def twoRegions : HandOff where
  info := ⟨2, 0x300000, 0, 0, 0x200000, 0x100000⟩
  map := [⟨0x100000, 0x700000, .usable, by decide, by decide⟩,
    ⟨0x1000000, 0x400000, .usable, by decide, by decide⟩]
  map_length := rfl

theorem memory_handed_over_two :
    ∃ out, init listPool twoRegions 0x400000 = .ok out ∧ out.layout.truncatedRuns = 0 := by
  have hmeta : ∀ runs : List Span, runs.length ≤ maxFreeRuns →
      (∀ run ∈ runs, run.1 + run.2 ≤ u64Max) →
      listPool.metadataBytesFor runs + heapSlack + 4096 ≤ 2 ^ 64 := by
    intro runs hlen hruns
    have hsum : (runs.map Prod.snd).sum ≤ runs.length * u64Max := by
      rw [← List.length_map Prod.snd]
      refine List.sum_le_card_nsmul _ _ fun x hx => ?_
      obtain ⟨run, hrun, rfl⟩ := List.mem_map.mp hx
      exact le_trans (Nat.le_add_left _ _) (hruns run hrun)
    have hmax := Nat.mul_le_mul_right u64Max hlen
    simp only [listPool, heapSlack, u64Max, maxFreeRuns] at *
    omega
  have hok : (init listPool twoRegions 0x400000).toOption.isSome := by decide +kernel
  cases hinit : init listPool twoRegions 0x400000 with
  | error e =>
    rw [hinit] at hok
    cases hok
  | ok out =>
    have hd : DisjointRegions (usable twoRegions.map) := by
      refine List.pairwise_pair.mpr fun a ha => ?_
      simp only [MemoryRegion.endAddr, saturatingAdd, u64Max] at ha
      omega
    have hall := memory_handed_over listPool hmeta twoRegions 0x400000 (by decide) (by decide) hd
      out hinit
    exact ⟨out, rfl, hall.2.2.2.2.2.2.1⟩

end MemInit

end StarOs.Kernel
