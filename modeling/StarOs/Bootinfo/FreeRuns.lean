import Mathlib.Algebra.Group.Nat.Defs
import StarOs.Library.Loop

/-! The memory map of the hand-off and `free_runs`, which carves the exclusions
out of the usable regions. Addresses are naturals below `2 ^ 64`; the only
operation that could leave that range is the saturating addition. The `out`
slice is rewritten in place: first in end-coordinates, then compacted into
`(start, len)` pairs. -/

namespace StarOs.Bootinfo

open Library.Loop

/-- `u64::MAX`. -/
def u64Max : ℕ := 2 ^ 64 - 1

/-- `u64::saturating_add`. -/
def saturatingAdd (a b : ℕ) : ℕ := min (a + b) u64Max

/-- What the firmware said a range is. -/
inductive MemoryKind where
  | usable
  | reserved
  | acpiReclaimable
  | acpiNvs
  | loaderReclaimable
  | badMemory
  deriving DecidableEq

def MemoryKind.usableAtBoot : MemoryKind → Bool
  | .usable => true
  | _ => false

/-- One entry of the physical memory map. -/
structure MemoryRegion where
  start : ℕ
  len : ℕ
  kind : MemoryKind
  start_le : start ≤ u64Max
  len_le : len ≤ u64Max

/-- `MemoryRegion::end`: one past the last byte, saturating. -/
def MemoryRegion.endAddr (r : MemoryRegion) : ℕ := saturatingAdd r.start r.len

/-- A pair of the `out` slice: `(start, end)` while carving, `(start, len)` after. -/
abbrev Span := ℕ × ℕ

/-- The regions `free_runs` starts from. -/
def usable (regions : List MemoryRegion) : List MemoryRegion :=
  regions.filter fun r => r.kind.usableAtBoot && decide (r.len > 0)

/-- Seed `out` with the usable regions in end-coordinates, counting all of them. -/
def seed (regions : List MemoryRegion) (out : List Span) : ℕ × List Span :=
  (usable regions).foldl
    (fun (n, out) r => (n + 1, if n < out.length then out.set n (r.start, r.endAddr) else out))
    (0, out)

/-- The part of `run` below the exclusion. -/
def leftPiece (exStart : ℕ) (run : Span) : Span := (run.1, min (max exStart run.1) run.2)

/-- The part of `run` above the exclusion. -/
def rightPiece (exEnd : ℕ) (run : Span) : Span := (max (min exEnd run.2) run.1, run.2)

/-- The inner loop's body: carve one exclusion out of entry `i`. The state is the
number of live entries and the slice. -/
def carveAt (exStart exEnd : ℕ) (state : ℕ × List Span) (i : ℕ) : ℕ × List Span :=
  let (live, out) := state
  let run := out.getD i (0, 0)
  if exEnd ≤ run.1 ∨ exStart ≥ run.2 then (live, out)
  else
    let left := leftPiece exStart run
    let right := rightPiece exEnd run
    let leftLen := left.2 - left.1
    let rightLen := right.2 - right.1
    match decide (leftLen > 0), decide (rightLen > 0) with
    | true, true =>
      if live < out.length then (live + 1, (out.set i left).set live right)
      -- no room to append: keep whichever piece is larger
      else (live, out.set i (if leftLen ≥ rightLen then left else right))
    | true, false => (live, out.set i left)
    | false, true => (live, out.set i right)
    -- the exclusion swallowed the run whole
    | false, false => (live, out.set i (run.1, run.1))

/-- The outer loop's body: one exclusion over the entries live before it. -/
def carve (state : ℕ × List Span) (ex : Span) : ℕ × List Span :=
  let exEnd := saturatingAdd ex.1 ex.2
  if exEnd ≤ ex.1 then state else forRange state.1 (carveAt ex.1 exEnd) state

/-- Compact away the empty runs and convert to `(start, len)`. -/
def compact (live : ℕ) (out : List Span) : ℕ × List Span :=
  forRange live (fun (kept, out) i =>
    let run := out.getD i (0, 0)
    if run.2 > run.1 then (kept + 1, out.set kept (run.1, run.2 - run.1)) else (kept, out)) (0, out)

/-- `free_runs`: the count it returns and the slice it leaves. -/
def freeRuns (regions : List MemoryRegion) (exclusions : List Span) (out : List Span) :
    ℕ × List Span :=
  let (n, out) := seed regions out
  let (live, out) := exclusions.foldl carve (min n out.length, out)
  let (kept, out) := compact live out
  (kept + (n - out.length), out)

/-! ### Seeding -/

theorem seed_eq (regions : List MemoryRegion) (out : List Span) :
    (seed regions out).1 = (usable regions).length ∧
    (seed regions out).2.length = out.length ∧
    ∀ i, i < (usable regions).length → i < out.length →
      (seed regions out).2[i]? = (usable regions)[i]?.map fun r => (r.start, r.endAddr) := by
  have h := foldl_invariant
    (P := fun pre (s : ℕ × List Span) => s.1 = pre.length ∧ s.2.length = out.length ∧
      ∀ i, i < pre.length → i < out.length →
        s.2[i]? = pre[i]?.map fun r => (r.start, r.endAddr))
    (f := fun (n, out) (r : MemoryRegion) =>
      (n + 1, if n < out.length then out.set n (r.start, r.endAddr) else out))
    (usable regions) (s := (0, out)) ⟨rfl, rfl, by simp⟩ ?_
  · exact h
  · rintro pre r - ⟨n, o⟩ ⟨hn, hlen, hget⟩
    simp only at hn hlen
    subst hn
    refine ⟨by simp, by dsimp only; split <;> simp [hlen], ?_⟩
    intro i hi hio
    by_cases hin : i < pre.length
    · rw [List.getElem?_append_left hin, ← hget i hin hio]
      dsimp only
      split
      · rw [List.getElem?_set_ne (by omega)]
      · rfl
    · have hin : i = pre.length := by simp at hi; omega
      subst hin
      dsimp only
      rw [if_pos (by omega), List.getElem?_set_self (by omega)]
      simp

/-- The seeded entries: one for each usable region that has a slot. -/
theorem seed_taken (regions : List MemoryRegion) (out : List Span) :
    (seed regions out).2.take (usable regions).length =
      ((usable regions).take out.length).map fun r => (r.start, r.endAddr) := by
  obtain ⟨-, hlen, hget⟩ := seed_eq regions out
  apply List.ext_getElem?
  intro i
  rw [List.getElem?_take, List.getElem?_map, List.getElem?_take]
  by_cases hi : i < (usable regions).length
  · by_cases hio : i < out.length
    · rw [if_pos hi, if_pos hio]
      exact hget i hi hio
    · rw [if_pos hi, if_neg hio, List.getElem?_eq_none (by omega)]
      rfl
  · rw [if_neg hi, List.getElem?_eq_none (Nat.le_of_not_lt hi), ite_self]
    rfl

end StarOs.Bootinfo
