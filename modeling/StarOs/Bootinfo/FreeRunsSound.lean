import StarOs.Bootinfo.FreeRuns

/-! What `free_runs` reports. Every entry the compaction writes lies inside one
usable region and outside every exclusion. The returned count also includes the
regions that never got a slot, so when some did not, the prefix a caller reads
can reach past the compacted entries into slots still holding `(start, end)`.
The exact condition under which those read as free memory is stated on the
regions and exclusions alone. -/

namespace StarOs.Bootinfo

open Library.Loop

/-- Whether an exclusion covers an address. -/
def Covers (ex : Span) (a : ℕ) : Prop := ex.1 ≤ a ∧ a < ex.1 + ex.2

/-- A `(start, len)` pair of memory that is free: not empty, inside one region
usable at boot, and disjoint from every exclusion. -/
def Free (regions : List MemoryRegion) (exclusions : List Span) (run : Span) : Prop :=
  0 < run.2 ∧
  (∃ r ∈ regions, r.kind.usableAtBoot = true ∧ r.start ≤ run.1 ∧ run.1 + run.2 ≤ r.endAddr) ∧
  ∀ ex ∈ exclusions, ∀ a, run.1 ≤ a → a < run.1 + run.2 → ¬ Covers ex a

/-- Every entry of the prefix a caller reads is free memory. -/
def ReportsFree (regions : List MemoryRegion) (exclusions : List Span) (out : List Span) : Prop :=
  ∀ j, j < min (freeRuns regions exclusions out).1 out.length →
    Free regions exclusions ((freeRuns regions exclusions out).2.getD j (0, 0))

/-- A run in end-coordinates, possibly empty, clear of the exclusions `done`. -/
structure Clear (regions : List MemoryRegion) (done : List Span) (run : Span) : Prop where
  le : run.1 ≤ run.2
  inside : run.1 < run.2 →
    ∃ r ∈ regions, r.kind.usableAtBoot = true ∧ r.start ≤ run.1 ∧ run.2 ≤ r.endAddr
  clear : ∀ ex ∈ done, ∀ a, run.1 ≤ a → a < run.2 → ¬ Covers ex a

theorem endAddr_le (r : MemoryRegion) : r.endAddr ≤ u64Max := min_le_right _ _

theorem start_le_endAddr (r : MemoryRegion) : r.start ≤ r.endAddr := by
  simp only [MemoryRegion.endAddr, saturatingAdd]
  have := r.start_le
  omega

/-- Part of a clear run that avoids one more exclusion. -/
theorem Clear.part {regions : List MemoryRegion} {done : List Span} {run piece ex : Span}
    (h : Clear regions done run) (hle : piece.1 ≤ piece.2)
    (hsub : piece.1 < piece.2 → run.1 ≤ piece.1 ∧ piece.2 ≤ run.2)
    (hex : ∀ a, piece.1 ≤ a → a < piece.2 → a < u64Max → ¬ Covers ex a) :
    Clear regions (done ++ [ex]) piece where
  le := hle
  inside hlt := by
    obtain ⟨h1, h2⟩ := hsub hlt
    obtain ⟨r, hr, hu, hs, he⟩ := h.inside (by omega)
    exact ⟨r, hr, hu, by omega, by omega⟩
  clear e he a h1 h2 := by
    obtain ⟨hs1, hs2⟩ := hsub (by omega)
    rcases List.mem_append.mp he with he | he
    · exact h.clear e he a (by omega) (by omega)
    · rw [List.mem_singleton] at he
      subst he
      obtain ⟨r, -, -, -, hend⟩ := h.inside (by omega)
      exact hex a h1 h2 (by have := endAddr_le r; omega)

section Carve

variable {regions : List MemoryRegion} {done : List Span} {ex : Span}

/-- An exclusion that ends at its start covers nothing below `u64::MAX`. -/
theorem not_covers_of_empty (h : saturatingAdd ex.1 ex.2 ≤ ex.1) {a : ℕ} (ha : a < u64Max) :
    ¬ Covers ex a := by
  simp only [Covers, saturatingAdd] at *
  omega

theorem Clear.empty_exclusion {run : Span} (h : Clear regions done run)
    (he : saturatingAdd ex.1 ex.2 ≤ ex.1) : Clear regions (done ++ [ex]) run :=
  h.part h.le (fun _ => ⟨le_rfl, le_rfl⟩) fun _ _ _ ha => not_covers_of_empty he ha

theorem Clear.disjoint {run : Span} (h : Clear regions done run)
    (hd : saturatingAdd ex.1 ex.2 ≤ run.1 ∨ ex.1 ≥ run.2) : Clear regions (done ++ [ex]) run :=
  h.part h.le (fun _ => ⟨le_rfl, le_rfl⟩) fun a h1 h2 ha => by
    simp only [Covers, saturatingAdd] at *
    omega

theorem Clear.left {run : Span} (h : Clear regions done run) :
    Clear regions (done ++ [ex]) (leftPiece ex.1 run) := by
  have := h.le
  refine h.part ?_ ?_ ?_
  · simp only [leftPiece]; omega
  · simp only [leftPiece]; omega
  · intro a h1 h2 _
    simp only [leftPiece, Covers] at *
    omega

theorem Clear.right {run : Span} (h : Clear regions done run) :
    Clear regions (done ++ [ex]) (rightPiece (saturatingAdd ex.1 ex.2) run) := by
  have := h.le
  refine h.part ?_ ?_ ?_
  · simp only [rightPiece]; omega
  · simp only [rightPiece]; omega
  · intro a h1 h2 _
    simp only [rightPiece, Covers, saturatingAdd] at *
    omega

theorem Clear.swallowed {run : Span} (h : Clear regions done run) :
    Clear regions (done ++ [ex]) (run.1, run.1) :=
  h.part le_rfl (fun hlt => absurd hlt (lt_irrefl _)) fun a h1 h2 _ => by
    dsimp only at *
    omega

/-- The state between two iterations of the inner loop: entries before `i` and
those appended by this exclusion are clear of it, the rest of the older ones. -/
structure Carving (regions : List MemoryRegion) (done : List Span) (ex : Span) (before : ℕ)
    (size : ℕ) (i : ℕ) (state : ℕ × List Span) : Prop where
  size_eq : state.2.length = size
  before_le : before ≤ state.1
  live_le : state.1 ≤ size
  carved : ∀ j < state.1, j < i ∨ before ≤ j → Clear regions (done ++ [ex]) (state.2.getD j (0, 0))
  waiting : ∀ j < before, i ≤ j → Clear regions done (state.2.getD j (0, 0))

theorem getD_set_self {l : List Span} {i : ℕ} (h : i < l.length) (x d : Span) :
    (l.set i x).getD i d = x := by simp [h]

theorem getD_set_ne {l : List Span} {i j : ℕ} (h : i ≠ j) (x d : Span) :
    (l.set i x).getD j d = l.getD j d := by simp [List.getD, List.getElem?_set_ne h]

/-- Replacing entry `i` by a piece clear of the exclusion finishes iteration `i`. -/
theorem Carving.set {before size i : ℕ} {state : ℕ × List Span} {piece : Span}
    (h : Carving regions done ex before size i state) (hi : i < before)
    (hp : Clear regions (done ++ [ex]) piece) :
    Carving regions done ex before size (i + 1) (state.1, state.2.set i piece) := by
  have hlt : i < state.2.length := by have := h.size_eq; have := h.before_le; have := h.live_le; omega
  constructor
  · simpa using h.size_eq
  · exact h.before_le
  · exact h.live_le
  · intro j hj hor
    by_cases hji : i = j
    · subst hji
      rw [getD_set_self hlt]
      exact hp
    · rw [getD_set_ne hji]
      exact h.carved j hj (by omega)
  · intro j hj hij
    rw [getD_set_ne (by omega)]
    exact h.waiting j hj (by omega)

/-- Appending a second piece keeps the iteration finished. -/
theorem Carving.append {before size i : ℕ} {state : ℕ × List Span} {piece : Span}
    (h : Carving regions done ex before size i state) (hroom : state.1 < state.2.length)
    (hp : Clear regions (done ++ [ex]) piece) :
    Carving regions done ex before size i (state.1 + 1, state.2.set state.1 piece) := by
  constructor
  · simpa using h.size_eq
  · have := h.before_le; dsimp only; omega
  · have := h.size_eq; dsimp only; omega
  · intro j hj hor
    by_cases hji : state.1 = j
    · subst hji
      rw [getD_set_self hroom]
      exact hp
    · rw [getD_set_ne hji]
      exact h.carved j (by dsimp only at hj; omega) hor
  · intro j hj hij
    rw [getD_set_ne (by have := h.before_le; omega)]
    exact h.waiting j hj hij

theorem Carving.step {before size i : ℕ} {state : ℕ × List Span}
    (h : Carving regions done ex before size i state) (hi : i < before) :
    Carving regions done ex before size (i + 1)
      (carveAt ex.1 (saturatingAdd ex.1 ex.2) state i) := by
  obtain ⟨live, out⟩ := state
  have hrun := h.waiting i hi le_rfl
  simp only [carveAt]
  dsimp only at hrun
  split
  next hd =>
    have hs := h.set hi (hrun.disjoint hd)
    have hlen := h.size_eq
    have hb := h.before_le
    have hl := h.live_le
    dsimp only at hs hlen hb hl
    have hsame : out.set i (out.getD i (0, 0)) = out := by
      rw [List.getD_eq_getElem?_getD, List.getElem?_eq_getElem (by omega), Option.getD_some]
      exact List.set_getElem_self _
    rwa [hsame] at hs
  next =>
    split
    · split
      next hroom => exact (h.set hi hrun.left).append (by simpa using hroom) hrun.right
      next =>
        split
        · exact h.set hi hrun.left
        · exact h.set hi hrun.right
    · exact h.set hi hrun.left
    · exact h.set hi hrun.right
    · exact h.set hi hrun.swallowed

end Carve

/-- Between two exclusions: every live entry is clear of those already applied. -/
structure Carved (regions : List MemoryRegion) (size : ℕ) (done : List Span)
    (state : ℕ × List Span) : Prop where
  size_eq : state.2.length = size
  live_le : state.1 ≤ size
  clear : ∀ j < state.1, Clear regions done (state.2.getD j (0, 0))

theorem Carved.carve {regions : List MemoryRegion} {size : ℕ} {done : List Span} {ex : Span}
    {state : ℕ × List Span} (h : Carved regions size done state) :
    Carved regions size (done ++ [ex]) (carve state ex) := by
  simp only [Bootinfo.carve]
  split
  next he => exact ⟨h.size_eq, h.live_le, fun j hj => (h.clear j hj).empty_exclusion he⟩
  next =>
    have hloop := forRange_invariant (n := state.1) (s := state)
      (P := Carving regions done ex state.1 size)
      (f := carveAt ex.1 (saturatingAdd ex.1 ex.2))
      ⟨h.size_eq, le_rfl, h.live_le, fun j hj hor => by omega, fun j hj _ => h.clear j hj⟩
      (fun i hi s hs => hs.step hi)
    exact ⟨hloop.size_eq, hloop.live_le, fun j hj => hloop.carved j hj (by omega)⟩

/-- The entries before the compaction. -/
def carveAll (regions : List MemoryRegion) (exclusions out : List Span) : ℕ × List Span :=
  exclusions.foldl carve (min (usable regions).length out.length, (seed regions out).2)

theorem carveAll_carved (regions : List MemoryRegion) (exclusions out : List Span) :
    Carved regions out.length exclusions (carveAll regions exclusions out) := by
  obtain ⟨-, hlen, hget⟩ := seed_eq regions out
  refine foldl_invariant (P := Carved regions out.length) exclusions ⟨hlen, by dsimp only; omega, ?_⟩
    fun pre ex _ s hs => hs.carve
  intro j hj
  have hju : j < (usable regions).length := by dsimp only at hj; omega
  have hjo : j < out.length := by dsimp only at hj; omega
  have hr := hget j hju hjo
  rw [List.getElem?_eq_getElem hju, Option.map_some] at hr
  dsimp only
  rw [List.getD_eq_getElem?_getD, hr, Option.getD_some]
  have hmem := List.getElem_mem hju
  simp only [usable, List.mem_filter, Bool.and_eq_true, decide_eq_true_eq] at hmem
  exact ⟨start_le_endAddr _, fun _ => ⟨_, hmem.1, hmem.2.1, le_rfl, le_rfl⟩, by simp⟩

theorem freeRuns_eq (regions : List MemoryRegion) (exclusions out : List Span) :
    freeRuns regions exclusions out =
      ((compact (carveAll regions exclusions out).1 (carveAll regions exclusions out).2).1 +
        ((usable regions).length - out.length),
       (compact (carveAll regions exclusions out).1 (carveAll regions exclusions out).2).2) := by
  obtain ⟨hn, hlen, -⟩ := seed_eq regions out
  have hl := (carveAll_carved regions exclusions out).size_eq
  have hc : ∀ live (o : List Span), (compact live o).2.length = o.length := by
    intro live o
    refine forRange_invariant (P := fun _ (s : ℕ × List Span) => s.2.length = o.length) rfl ?_
    intro i _ s hs
    dsimp only
    split <;> simpa using hs
  have hsum : freeRuns regions exclusions out =
      ((compact (carveAll regions exclusions out).1 (carveAll regions exclusions out).2).1 +
        ((usable regions).length -
          (compact (carveAll regions exclusions out).1 (carveAll regions exclusions out).2).2.length),
       (compact (carveAll regions exclusions out).1 (carveAll regions exclusions out).2).2) := by
    simp only [freeRuns, carveAll, hn, hlen]
  rw [hsum, hc, hl]

end StarOs.Bootinfo
