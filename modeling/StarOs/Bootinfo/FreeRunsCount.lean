import Mathlib.Algebra.BigOperators.Intervals
import Mathlib.Algebra.Order.BigOperators.Group.Finset
import StarOs.Bootinfo.FreeRunsComplete

/-! What `free_runs` counts. The truth is the number of pieces the exclusions leave
of the usable regions. Against it, a region without a slot is counted as one run
however many pieces it leaves, and a split that finds the slice full loses the
smaller piece without counting it. The two errors are accounted for exactly, and
the count is the truth at every length of the slice only where neither can occur. -/

namespace StarOs.Bootinfo

open Library Library.Loop Finset

/-- Whether a run in end-coordinates has a byte. -/
def nonEmpty (run : Span) : Bool := run.1 < run.2

/-- What an exclusion leaves of a run: the part before it and the part after it. -/
def cut (ex run : Span) : List Span :=
  let exEnd := saturatingAdd ex.1 ex.2
  if exEnd ≤ ex.1 then [run]
  else [(run.1, min run.2 ex.1), (max run.1 exEnd, run.2)].filter nonEmpty

/-- The non-empty pieces left of a run after every exclusion. -/
def pieces : List Span → Span → List Span
  | [], run => [run].filter nonEmpty
  | ex :: rest, run => (cut ex run).flatMap (pieces rest)

def piecesOf (exclusions : List Span) (regions : List MemoryRegion) : List Span :=
  regions.flatMap fun r => pieces exclusions (r.start, r.endAddr)

/-- The pieces left of the usable regions: the runs that exist. -/
def freePieces (regions : List MemoryRegion) (exclusions : List Span) : List Span :=
  piecesOf exclusions (usable regions)

/-- The runs `free_runs` leaves in the slice. -/
def kept (regions : List MemoryRegion) (exclusions out : List Span) : ℕ :=
  (compact (carveAll regions exclusions out).1 (carveAll regions exclusions out).2).1

instance (exStart exEnd : ℕ) (run : Span) : Decidable (Splits exStart exEnd run) :=
  inferInstanceAs (Decidable (_ ∧ _))

/-- The piece a split without room drops. -/
def smaller (exStart exEnd : ℕ) (run : Span) : Span :=
  let left := leftPiece exStart run
  let right := rightPiece exEnd run
  if left.2 - left.1 ≥ right.2 - right.1 then right else left

/-! ### The pieces of one run -/

section

variable {ex run : Span} {rest exclusions : List Span}

theorem pieces_of_empty (exclusions : List Span) (h : run.2 ≤ run.1) : pieces exclusions run = [] := by
  induction exclusions with
  | nil => simp [pieces, nonEmpty, h]
  | cons ex rest ih =>
    simp only [pieces, cut]
    split
    · rw [List.flatMap_singleton, ih]
    · rw [List.filter_eq_nil_iff.mpr, List.flatMap_nil]
      simp only [List.mem_cons, List.not_mem_nil, or_false, forall_eq_or_imp, forall_eq, nonEmpty,
        decide_eq_true_eq]
      omega

theorem pieces_filter (exclusions runs : List Span) :
    (runs.filter nonEmpty).flatMap (pieces exclusions) = runs.flatMap (pieces exclusions) := by
  induction runs with
  | nil => rfl
  | cons run runs ih =>
    rw [List.filter_cons]
    split
    · rw [List.flatMap_cons, List.flatMap_cons, ih]
    · rename_i h
      rw [List.flatMap_cons, pieces_of_empty exclusions, ih, List.nil_append]
      simpa [nonEmpty] using h

/-- An address is in a piece when it is in the run and in no exclusion. -/
theorem pieces_covers (exclusions : List Span) (run : Span) (a : ℕ) :
    (∃ piece ∈ pieces exclusions run, holds a piece = true) ↔
      holds a run = true ∧ ∀ ex ∈ exclusions, ¬(ex.1 ≤ a ∧ a < saturatingAdd ex.1 ex.2) := by
  induction exclusions generalizing run with
  | nil =>
    simp only [pieces, List.mem_filter, List.mem_singleton, nonEmpty, holds_iff, decide_eq_true_eq]
    constructor
    · rintro ⟨piece, ⟨rfl, -⟩, ha⟩
      exact ⟨ha, by simp⟩
    · rintro ⟨ha, -⟩
      exact ⟨run, ⟨rfl, by omega⟩, ha⟩
  | cons ex rest ih =>
    have hstep : (∃ piece ∈ pieces (ex :: rest) run, holds a piece = true) ↔
        ∃ part ∈ cut ex run, ∃ piece ∈ pieces rest part, holds a piece = true := by
      simp only [pieces, List.mem_flatMap]
      constructor
      · rintro ⟨piece, ⟨part, hpart, hpiece⟩, ha⟩
        exact ⟨part, hpart, piece, hpiece, ha⟩
      · rintro ⟨part, hpart, piece, hpiece, ha⟩
        exact ⟨piece, ⟨part, hpart, hpiece⟩, ha⟩
    have hcut : (∃ part ∈ cut ex run, holds a part = true) ↔
        holds a run = true ∧ ¬(ex.1 ≤ a ∧ a < saturatingAdd ex.1 ex.2) := by
      simp only [cut]
      split
      · simp only [List.mem_singleton, exists_eq_left, holds_iff]
        omega
      · simp only [List.mem_filter, List.mem_cons, List.not_mem_nil, or_false, nonEmpty,
          decide_eq_true_eq, and_assoc, or_and_right, exists_or, exists_eq_left, holds_iff]
        omega
    rw [hstep, List.forall_mem_cons, ← and_assoc, ← hcut]
    simp only [ih]
    constructor
    · rintro ⟨part, hpart, ha, hrest⟩
      exact ⟨⟨part, hpart, ha⟩, hrest⟩
    · rintro ⟨⟨part, hpart, ha⟩, hrest⟩
      exact ⟨part, hpart, ha, hrest⟩

theorem piece_inside {piece : Span} (h : piece ∈ pieces exclusions run) :
    run.1 ≤ piece.1 ∧ piece.1 < piece.2 ∧ piece.2 ≤ run.2 := by
  induction exclusions generalizing run with
  | nil =>
    simp only [pieces, List.mem_filter, List.mem_singleton, nonEmpty, decide_eq_true_eq] at h
    obtain ⟨rfl, hlt⟩ := h
    exact ⟨le_rfl, hlt, le_rfl⟩
  | cons ex rest ih =>
    obtain ⟨part, hpart, hpiece⟩ := List.mem_flatMap.mp h
    have hin := ih hpiece
    simp only [cut] at hpart
    split at hpart
    · rw [List.mem_singleton] at hpart
      exact hpart ▸ hin
    · simp only [List.mem_filter, List.mem_cons, List.not_mem_nil, or_false] at hpart
      obtain ⟨rfl | rfl, -⟩ := hpart
      · dsimp only at hin
        omega
      · dsimp only at hin
        omega

/-- The pieces come in order, with an excluded address between one and the next. -/
theorem pieces_apart (exclusions : List Span) (run : Span) :
    (pieces exclusions run).Pairwise fun x y => x.2 < y.1 := by
  induction exclusions generalizing run with
  | nil => exact List.Pairwise.filter _ (List.pairwise_singleton _ _)
  | cons ex rest ih =>
    simp only [pieces, cut]
    split
    · rw [List.flatMap_singleton]
      exact ih run
    · rename_i hne
      rw [pieces_filter, List.flatMap_cons, List.flatMap_singleton, List.pairwise_append]
      refine ⟨ih _, ih _, fun x hx y hy => ?_⟩
      have hleft := piece_inside hx
      have hright := piece_inside hy
      dsimp only at hleft hright
      omega

end

/-! ### One step of the carving -/

section

variable {ex run : Span} {rest : List Span}

/-- A run that splits leaves the pieces of both its parts. -/
theorem pieces_splits (hex : ex.1 < saturatingAdd ex.1 ex.2)
    (h : Splits ex.1 (saturatingAdd ex.1 ex.2) run) :
    pieces (ex :: rest) run = pieces rest (leftPiece ex.1 run) ++
      pieces rest (rightPiece (saturatingAdd ex.1 ex.2) run) := by
  obtain ⟨-, hleft, hright⟩ := h
  simp only [leftPiece, rightPiece] at hleft hright
  simp only [pieces, cut, if_neg hex.not_ge]
  have hl : leftPiece ex.1 run = (run.1, min run.2 ex.1) := by
    simp only [leftPiece, Prod.mk.injEq, true_and]
    omega
  have hr : rightPiece (saturatingAdd ex.1 ex.2) run =
      (max run.1 (saturatingAdd ex.1 ex.2), run.2) := by
    simp only [rightPiece, Prod.mk.injEq, and_true]
    omega
  rw [pieces_filter, List.flatMap_cons, List.flatMap_singleton, hl, hr]

/-- Any other run leaves the pieces of the one part carved from it. -/
theorem pieces_whole (hex : ex.1 < saturatingAdd ex.1 ex.2)
    (h : ¬Splits ex.1 (saturatingAdd ex.1 ex.2) run) :
    pieces (ex :: rest) run = pieces rest (carveFull ex.1 (saturatingAdd ex.1 ex.2) run) := by
  simp only [pieces, cut, if_neg hex.not_ge]
  rw [pieces_filter, List.flatMap_cons, List.flatMap_singleton]
  generalize saturatingAdd ex.1 ex.2 = exEnd at hex h ⊢
  obtain ⟨hmeet, hsame⟩ | ⟨hmeet, ⟨hl, hr, -⟩ | ⟨hl, hr, hpart⟩ | ⟨hl, hr, hpart⟩ |
    ⟨hl, hr, hpart⟩⟩ := carveFull_parts ex.1 exEnd run
  · rw [hsame]
    by_cases hempty : run.2 ≤ run.1
    · rw [pieces_of_empty rest hempty, pieces_of_empty, pieces_of_empty, List.append_nil]
      · dsimp only; omega
      · dsimp only; omega
    · obtain habove | hbelow := hmeet
      · rw [pieces_of_empty, List.nil_append, Nat.max_eq_left habove]
        dsimp only; omega
      · rw [pieces_of_empty rest (by dsimp only; omega : (max run.1 exEnd, run.2).2 ≤ _),
          List.append_nil, Nat.min_eq_left hbelow]
  · exact absurd ⟨hmeet, hl, hr⟩ h
  · rw [hpart]
    simp only [leftPiece, rightPiece] at hl hr ⊢
    rw [pieces_of_empty rest (by dsimp only; omega : (max run.1 exEnd, run.2).2 ≤ _),
      List.append_nil]
    congr 1
    simp only [Prod.mk.injEq, true_and]
    omega
  · rw [hpart]
    simp only [leftPiece, rightPiece] at hl hr ⊢
    rw [pieces_of_empty rest (by dsimp only; omega : (run.1, min run.2 ex.1).2 ≤ _),
      List.nil_append]
    congr 1
    simp only [Prod.mk.injEq, and_true]
    omega
  · rw [hpart]
    simp only [leftPiece, rightPiece] at hl hr
    rw [pieces_of_empty rest (by dsimp only; omega : (run.1, min run.2 ex.1).2 ≤ _),
      pieces_of_empty rest (by dsimp only; omega : (max run.1 exEnd, run.2).2 ≤ _),
      pieces_of_empty rest le_rfl, List.append_nil]

/-- Without room a split keeps one part and drops the smaller. -/
theorem splits_cases {exStart exEnd : ℕ} (h : Splits exStart exEnd run) :
    (carveFull exStart exEnd run = leftPiece exStart run ∧
      smaller exStart exEnd run = rightPiece exEnd run) ∨
    (carveFull exStart exEnd run = rightPiece exEnd run ∧
      smaller exStart exEnd run = leftPiece exStart run) := by
  obtain ⟨hmeet, hleft, hright⟩ := h
  simp only [carveFull, if_neg hmeet, decide_eq_true hleft, decide_eq_true hright, smaller]
  split
  · exact .inl ⟨rfl, rfl⟩
  · exact .inr ⟨rfl, rfl⟩

end

/-! ### A measure of the live entries -/

section

variable (f : List Span → Span → ℕ) (ex : Span) (rest : List Span) {before i : ℕ}
  {state : ℕ × List Span}

/-- A measure summed over the live entries, those from `i` to `before` still waiting
for the exclusion. -/
def tally (before i : ℕ) (state : ℕ × List Span) : ℕ :=
  ∑ j ∈ range state.1,
    f (if i ≤ j ∧ j < before then ex :: rest else rest) (state.2.getD j (0, 0))

/-- What an entry measures once it is carved. -/
def carvedMeasure (room : Prop) [Decidable room] (run : Span) : ℕ :=
  let exEnd := saturatingAdd ex.1 ex.2
  if Splits ex.1 exEnd run ∧ room then f rest (leftPiece ex.1 run) + f rest (rightPiece exEnd run)
  else f rest (carveFull ex.1 exEnd run)

theorem tally_set (piece : Span) (hi : i < before) (hbefore : before ≤ state.1)
    (hlive : state.1 ≤ state.2.length) :
    tally f ex rest before (i + 1) (state.1, state.2.set i piece) +
        f (ex :: rest) (state.2.getD i (0, 0)) =
      tally f ex rest before i state + f rest piece := by
  have hmem : i ∈ range state.1 := mem_range.mpr (by omega)
  simp only [tally]
  rw [← add_sum_erase _ _ hmem, ← add_sum_erase _ _ hmem, getD_set_self (by omega),
    if_neg (by omega), if_pos ⟨le_rfl, hi⟩]
  have hothers : ∀ j ∈ (range state.1).erase i,
      f (if i + 1 ≤ j ∧ j < before then ex :: rest else rest) ((state.2.set i piece).getD j (0, 0)) =
        f (if i ≤ j ∧ j < before then ex :: rest else rest) (state.2.getD j (0, 0)) := by
    intro j hj
    have hne : j ≠ i := ne_of_mem_erase hj
    have hsame : (i + 1 ≤ j ∧ j < before) ↔ i ≤ j ∧ j < before := by omega
    rw [getD_set_ne hne.symm]
    simp only [hsame]
  rw [sum_congr rfl hothers]
  omega

theorem tally_append (piece : Span) (hbefore : before ≤ state.1) (hroom : state.1 < state.2.length) :
    tally f ex rest before i (state.1 + 1, state.2.set state.1 piece) =
      tally f ex rest before i state + f rest piece := by
  simp only [tally]
  rw [sum_range_succ, getD_set_self hroom, if_neg (by omega)]
  congr 1
  refine sum_congr rfl fun j hj => ?_
  rw [getD_set_ne (mem_range.mp hj).ne']

/-- One entry moves the measure by its own change. -/
theorem tally_step (hi : i < before) (hbefore : before ≤ state.1) (hlive : state.1 ≤ state.2.length) :
    tally f ex rest before (i + 1) (carveAt ex.1 (saturatingAdd ex.1 ex.2) state i) +
        f (ex :: rest) (state.2.getD i (0, 0)) =
      tally f ex rest before i state +
        carvedMeasure f ex rest (state.1 < state.2.length) (state.2.getD i (0, 0)) := by
  by_cases hs : Splits ex.1 (saturatingAdd ex.1 ex.2) (state.2.getD i (0, 0)) ∧
      state.1 < state.2.length
  · obtain ⟨hs, hroom⟩ := hs
    rw [carveAt_splits hs hroom, carvedMeasure, if_pos ⟨hs, hroom⟩]
    have hset := tally_set f ex rest (leftPiece ex.1 (state.2.getD i (0, 0))) hi hbefore hlive
    have happ := @tally_append f ex rest before (i + 1)
      (state.1, state.2.set i (leftPiece ex.1 (state.2.getD i (0, 0))))
      (rightPiece (saturatingAdd ex.1 ex.2) (state.2.getD i (0, 0))) hbefore (by simpa using hroom)
    dsimp only at happ
    omega
  · have hone := carveAt_one (i := i) (by omega) fun hmeet hl hr hroom =>
      hs ⟨⟨hmeet, hl, hr⟩, hroom⟩
    rw [hone, carvedMeasure, if_neg hs]
    exact tally_set f ex rest _ hi hbefore hlive

/-- The measure of all live entries. -/
def total (exclusions : List Span) (state : ℕ × List Span) : ℕ :=
  ∑ j ∈ range state.1, f exclusions (state.2.getD j (0, 0))

theorem tally_start (state : ℕ × List Span) :
    tally f ex rest state.1 0 state = total f (ex :: rest) state := by
  refine sum_congr rfl fun j hj => ?_
  rw [if_pos ⟨Nat.zero_le j, mem_range.mp hj⟩]

theorem tally_done (before : ℕ) (state : ℕ × List Span) :
    tally f ex rest before before state = total f rest state := by
  refine sum_congr rfl fun j _ => ?_
  rw [if_neg (by omega)]

theorem total_eq (exclusions : List Span) (hlive : state.1 ≤ state.2.length) :
    total f exclusions state = ((state.2.take state.1).map (f exclusions)).sum := by
  obtain ⟨live, out⟩ := state
  dsimp only at hlive
  simp only [total]
  induction live with
  | zero => rfl
  | succ n ih =>
    rw [sum_range_succ, ih (by omega), List.take_succ_eq_append_getElem (by omega), List.map_append,
      List.sum_append, List.map_singleton, List.sum_singleton, List.getD_eq_getElem?_getD,
      List.getElem?_eq_getElem (by omega), Option.getD_some]

end

/-! ### What is lost -/

/-- How many pieces of entry `i` the code drops for want of room: those the exclusions
still to come would leave of the smaller part. -/
def lostAt (ex : Span) (rest : List Span) (state : ℕ × List Span) (i : ℕ) : ℕ :=
  let exEnd := saturatingAdd ex.1 ex.2
  let run := state.2.getD i (0, 0)
  if Splits ex.1 exEnd run ∧ ¬state.1 < state.2.length then
    (pieces rest (smaller ex.1 exEnd run)).length
  else 0

def lostIn (ex : Span) (rest : List Span) (state : ℕ × List Span) : ℕ :=
  let exEnd := saturatingAdd ex.1 ex.2
  if exEnd ≤ ex.1 then 0
  else ∑ i ∈ range state.1, lostAt ex rest (forRange i (carveAt ex.1 exEnd) state) i

/-- How many pieces the splits that find the slice full drop. -/
def lost : List Span → ℕ × List Span → ℕ
  | [], _ => 0
  | ex :: rest, state => lostIn ex rest state + lost rest (carve state ex)

/-- How many pieces a run has in the end. -/
def pieceCount (exclusions : List Span) (run : Span) : ℕ := (pieces exclusions run).length

/-- One if the larger parts of a run outlast the exclusions. -/
def outlasts (exclusions : List Span) (run : Span) : ℕ := tick (nonEmpty (remnant exclusions run))

section

variable {regions : List MemoryRegion} {pre rest : List Span} {ex : Span} {size : ℕ}
  {state : ℕ × List Span}

theorem carved_pieceCount (hex : ex.1 < saturatingAdd ex.1 ex.2) (rest : List Span)
    (state : ℕ × List Span) (i : ℕ) :
    carvedMeasure pieceCount ex rest (state.1 < state.2.length) (state.2.getD i (0, 0)) +
      lostAt ex rest state i = pieceCount (ex :: rest) (state.2.getD i (0, 0)) := by
  simp only [carvedMeasure, lostAt, pieceCount]
  by_cases hs : Splits ex.1 (saturatingAdd ex.1 ex.2) (state.2.getD i (0, 0))
  · rw [pieces_splits hex hs, List.length_append]
    by_cases hroom : state.1 < state.2.length
    · rw [if_pos ⟨hs, hroom⟩, if_neg fun h => h.2 hroom]
      omega
    · rw [if_neg fun h => hroom h.2, if_pos ⟨hs, hroom⟩]
      obtain ⟨hkeep, hdrop⟩ | ⟨hkeep, hdrop⟩ := splits_cases hs
      · rw [hkeep, hdrop]
      · rw [hkeep, hdrop, Nat.add_comm]
  · rw [if_neg fun h => hs h.1, if_neg fun h => hs h.1, pieces_whole hex hs]
    rfl

theorem remnant_cons (hex : ex.1 < saturatingAdd ex.1 ex.2) (run : Span) :
    remnant (ex :: rest) run = remnant rest (carveFull ex.1 (saturatingAdd ex.1 ex.2) run) := by
  simp only [remnant, List.foldl_cons, if_neg hex.not_ge]

theorem carved_outlasts (hex : ex.1 < saturatingAdd ex.1 ex.2) (rest : List Span) (room : Prop)
    [Decidable room] (run : Span) : outlasts (ex :: rest) run ≤ carvedMeasure outlasts ex rest room run := by
  simp only [carvedMeasure, outlasts, remnant_cons hex]
  split
  · rename_i hs
    obtain ⟨hkeep, -⟩ | ⟨hkeep, -⟩ := splits_cases hs.1
    · rw [hkeep]
      exact Nat.le_add_right _ _
    · rw [hkeep]
      exact Nat.le_add_left _ _
  · exact le_rfl

/-- What one exclusion does to the pieces and to the runs that outlast the rest. -/
theorem Carved.total_carve (h : Carved regions size pre state) (ex : Span) (rest : List Span) :
    total pieceCount rest (Bootinfo.carve state ex) + lostIn ex rest state =
        total pieceCount (ex :: rest) state ∧
      total outlasts (ex :: rest) state ≤ total outlasts rest (Bootinfo.carve state ex) := by
  simp only [Bootinfo.carve, lostIn]
  split
  · rename_i hempty
    have hpieces : ∀ run, pieceCount (ex :: rest) run = pieceCount rest run := by
      intro run
      simp only [pieceCount, pieces, cut, if_pos hempty, List.flatMap_singleton]
    have hremnant : ∀ run, outlasts (ex :: rest) run = outlasts rest run := by
      intro run
      simp only [outlasts, remnant, List.foldl_cons, if_pos hempty]
    simp only [total, hpieces, hremnant, Nat.add_zero, le_refl, and_self]
  rename_i hne
  have hex : ex.1 < saturatingAdd ex.1 ex.2 := Nat.lt_of_not_le hne
  have hloop := forRange_invariant (n := state.1) (s := state)
    (P := fun i t => t = forRange i (carveAt ex.1 (saturatingAdd ex.1 ex.2)) state ∧
      Carving regions pre ex state.1 size i t ∧
      tally pieceCount ex rest state.1 i t + ∑ k ∈ range i,
          lostAt ex rest (forRange k (carveAt ex.1 (saturatingAdd ex.1 ex.2)) state) k =
        total pieceCount (ex :: rest) state ∧
      total outlasts (ex :: rest) state ≤ tally outlasts ex rest state.1 i t)
    (f := carveAt ex.1 (saturatingAdd ex.1 ex.2)) ?_ fun i hi t ht => ?_
  · obtain ⟨-, -, hcount, hlast⟩ := hloop
    rw [tally_done] at hcount hlast
    exact ⟨hcount, hlast⟩
  · refine ⟨rfl, ⟨h.size_eq, le_rfl, h.live_le, fun j hj hor => by omega,
      fun j hj _ => h.clear j hj⟩, ?_, ?_⟩
    · rw [tally_start, range_zero, sum_empty, Nat.add_zero]
    · rw [tally_start]
  · obtain ⟨heq, hcarving, hcount, hlast⟩ := ht
    have hpieces := tally_step pieceCount ex rest hi hcarving.before_le hcarving.live_le_length
    have hruns := tally_step outlasts ex rest hi hcarving.before_le hcarving.live_le_length
    have hlost := carved_pieceCount hex rest t i
    have hmore := carved_outlasts hex rest (t.1 < t.2.length) (t.2.getD i (0, 0))
    refine ⟨by rw [forRange_succ, ← heq], hcarving.step hi, ?_, by omega⟩
    rw [sum_range_succ, ← heq]
    omega

/-- What all of them do. -/
theorem Carved.total_run (h : Carved regions size pre state) (rest : List Span) :
    total pieceCount [] (rest.foldl Bootinfo.carve state) + lost rest state =
        total pieceCount rest state ∧
      total outlasts rest state ≤ total outlasts [] (rest.foldl Bootinfo.carve state) := by
  induction rest generalizing pre state with
  | nil => exact ⟨rfl, le_rfl⟩
  | cons ex rest ih =>
    obtain ⟨hcount, hlast⟩ := h.total_carve ex rest
    have hnext : Carved regions size (pre ++ [ex]) (Bootinfo.carve state ex) := h.carve
    obtain ⟨hcounts, hlasts⟩ := ih hnext
    simp only [List.foldl_cons, lost]
    omega

end

/-! ### The count -/

section

variable {regions : List MemoryRegion} {exclusions out : List Span}

/-- The state the exclusions start from. -/
def seeded (regions : List MemoryRegion) (out : List Span) : ℕ × List Span :=
  (min (usable regions).length out.length, (seed regions out).2)

/-- The usable regions that get no slot. -/
def beyond (regions : List MemoryRegion) (out : List Span) : List MemoryRegion :=
  (usable regions).drop out.length

/-- How many pieces the count misses: those dropped where a split finds the slice full. -/
def lostPieces (regions : List MemoryRegion) (exclusions out : List Span) : ℕ :=
  lost exclusions (seeded regions out)

theorem seeded_take (regions : List MemoryRegion) (out : List Span) :
    (seeded regions out).2.take (seeded regions out).1 =
      ((usable regions).take out.length).map fun r => (r.start, r.endAddr) := by
  obtain ⟨-, hlen, -⟩ := seed_eq regions out
  rw [← seed_taken, seeded, List.take_eq_take_min (i := (usable regions).length), hlen]

theorem total_seeded (f : List Span → Span → ℕ) (regions : List MemoryRegion)
    (exclusions out : List Span) : total f exclusions (seeded regions out) =
      (((usable regions).take out.length).map fun r => f exclusions (r.start, r.endAddr)).sum := by
  obtain ⟨-, hlen, -⟩ := seed_eq regions out
  rw [total_eq f exclusions (by simp only [seeded, hlen]; omega), seeded_take, List.map_map]
  rfl

/-- The entries kept are the live ones that are not empty. -/
theorem kept_eq (regions : List MemoryRegion) (exclusions out : List Span) :
    kept regions exclusions out = total pieceCount [] (carveAll regions exclusions out) ∧
      kept regions exclusions out = total outlasts [] (carveAll regions exclusions out) := by
  have hcarved := carveAll_carved regions exclusions out
  have hlive : (carveAll regions exclusions out).1 ≤ (carveAll regions exclusions out).2.length :=
    hcarved.size_eq ▸ hcarved.live_le
  have hkept := (compact_spec _ _ hlive).kept_eq
  rw [countP_eq_sum] at hkept
  have hone : pieceCount [] = fun run => tick (nonEmpty run) := by
    funext run
    simp only [pieceCount, pieces, List.filter_singleton]
    cases nonEmpty run <;> rfl
  rw [total_eq _ _ hlive, total_eq _ _ hlive, hone]
  exact ⟨hkept, hkept⟩

/-- The slice holds the pieces of the regions that have a slot, less those dropped. -/
theorem kept_add_lost (regions : List MemoryRegion) (exclusions out : List Span) :
    kept regions exclusions out + lostPieces regions exclusions out =
      (((usable regions).take out.length).map fun r =>
        pieceCount exclusions (r.start, r.endAddr)).sum := by
  have hstart := carveAll_carved regions [] out
  rw [← total_seeded, (kept_eq regions exclusions out).1]
  exact (hstart.total_run exclusions).1

/-- A region whose larger parts outlast the exclusions always yields a run. -/
theorem outlasts_le_kept (regions : List MemoryRegion) (exclusions out : List Span) :
    (((usable regions).take out.length).map fun r => outlasts exclusions (r.start, r.endAddr)).sum ≤
      kept regions exclusions out := by
  have hstart := carveAll_carved regions [] out
  rw [← total_seeded, (kept_eq regions exclusions out).2]
  exact (hstart.total_run exclusions).2

theorem freeRuns_count (regions : List MemoryRegion) (exclusions out : List Span) :
    (freeRuns regions exclusions out).1 = kept regions exclusions out + (beyond regions out).length := by
  rw [freeRuns_eq, beyond, List.length_drop]
  rfl

/-- Both errors of the count at once: it misses the pieces dropped by splits without room,
and takes each region without a slot for one run. -/
theorem count_accounted (regions : List MemoryRegion) (exclusions out : List Span) :
    (freeRuns regions exclusions out).1 + lostPieces regions exclusions out +
        (piecesOf exclusions (beyond regions out)).length =
      (freePieces regions exclusions).length + (beyond regions out).length := by
  have hkept := kept_add_lost regions exclusions out
  have hsplit : (freePieces regions exclusions).length =
      (piecesOf exclusions ((usable regions).take out.length)).length +
        (piecesOf exclusions (beyond regions out)).length := by
    rw [← List.length_append, piecesOf, piecesOf, beyond, ← List.flatMap_append,
      List.take_append_drop]
    rfl
  have hslots : (piecesOf exclusions ((usable regions).take out.length)).length =
      (((usable regions).take out.length).map fun r =>
        pieceCount exclusions (r.start, r.endAddr)).sum := List.length_flatMap
  rw [freeRuns_count]
  omega

/-- Where no split finds the slice full, nothing is dropped. -/
theorem lost_of_neverFull (h : NeverFull regions exclusions out) :
    lostPieces regions exclusions out = 0 := by
  have hrun : ∀ rest pre, exclusions = pre ++ rest → lost rest (carveAll regions pre out) = 0 := by
    intro rest
    induction rest with
    | nil => exact fun _ _ => rfl
    | cons ex rest ih =>
      intro pre heq
      have hnext := ih (pre ++ [ex]) (by rw [heq, List.append_assoc]; rfl)
      rw [carveAll_snoc] at hnext
      rw [lost, hnext, Nat.add_zero, lostIn]
      split
      · rfl
      · rename_i hne
        refine sum_eq_zero fun i hi => if_neg ?_
        rintro ⟨hs, hfull⟩
        exact hfull (h.2 pre ex rest heq (Nat.lt_of_not_le hne) i (mem_range.mp hi) hs)
  exact hrun exclusions [] rfl

theorem outlasts_le_pieceCount (exclusions : List Span) (run : Span) :
    outlasts exclusions run ≤ pieceCount exclusions run := by
  induction exclusions generalizing run with
  | nil =>
    simp only [outlasts, remnant, List.foldl_nil, pieceCount, pieces, List.filter_singleton]
    cases nonEmpty run <;> simp
  | cons ex rest ih =>
    by_cases hempty : saturatingAdd ex.1 ex.2 ≤ ex.1
    · simp only [outlasts, remnant, List.foldl_cons, if_pos hempty, pieceCount, pieces, cut,
        List.flatMap_singleton]
      exact ih run
    · have hex : ex.1 < saturatingAdd ex.1 ex.2 := Nat.lt_of_not_le hempty
      have hrest := ih (carveFull ex.1 (saturatingAdd ex.1 ex.2) run)
      simp only [outlasts, pieceCount] at hrest ⊢
      rw [remnant_cons hex]
      refine hrest.trans ?_
      by_cases hs : Splits ex.1 (saturatingAdd ex.1 ex.2) run
      · rw [pieces_splits hex hs, List.length_append]
        obtain ⟨hkeep, -⟩ | ⟨hkeep, -⟩ := splits_cases hs
        · rw [hkeep]
          exact Nat.le_add_right _ _
        · rw [hkeep]
          exact Nat.le_add_left _ _
      · rw [pieces_whole hex hs]

/-- Every usable region leaves one piece, and it is among the larger parts. -/
def OnePieceEach (regions : List MemoryRegion) (exclusions : List Span) : Prop :=
  ∀ r ∈ usable regions, (pieces exclusions (r.start, r.endAddr)).length = 1 ∧
    nonEmpty (remnant exclusions (r.start, r.endAddr)) = true

/-- The count is the truth, and past the slice exactly when runs were dropped. -/
def CountsTruth (regions : List MemoryRegion) (exclusions out : List Span) : Prop :=
  (freeRuns regions exclusions out).1 = (freePieces regions exclusions).length ∧
  (out.length < (freeRuns regions exclusions out).1 ↔
    kept regions exclusions out < (freePieces regions exclusions).length)

theorem sum_of_ones {f : MemoryRegion → ℕ} {rs : List MemoryRegion} (h : ∀ r ∈ rs, f r = 1) :
    (rs.map f).sum = rs.length := by
  rw [List.map_congr_left h, List.map_const', List.sum_const_nat, Nat.mul_one]

theorem ones_of_sum {f : MemoryRegion → ℕ} {rs : List MemoryRegion} (hpos : ∀ r ∈ rs, 1 ≤ f r)
    (hsum : (rs.map f).sum = rs.length) : ∀ r ∈ rs, f r = 1 := by
  induction rs with
  | nil => simp
  | cons r rs ih =>
    rw [List.forall_mem_cons] at hpos ⊢
    have hlow := List.length_le_sum_of_one_le (rs.map f) (List.forall_mem_map.mpr hpos.2)
    rw [List.length_map] at hlow
    rw [List.map_cons, List.sum_cons, List.length_cons] at hsum
    exact ⟨by omega, ih hpos.2 (by omega)⟩

theorem freePieces_length (regions : List MemoryRegion) (exclusions : List Span) :
    (freePieces regions exclusions).length =
      ((usable regions).map fun r => pieceCount exclusions (r.start, r.endAddr)).sum :=
  List.length_flatMap

/-- In a full slice the entries kept are the regions whose larger parts outlast the
exclusions. -/
theorem kept_full (h : out.length ≤ (usable regions).length) :
    kept regions exclusions out =
      (((usable regions).take out.length).map fun r =>
        outlasts exclusions (r.start, r.endAddr)).sum := by
  have hlen : (remnants regions exclusions out.length).length = out.length := by
    rw [remnants, List.length_map, List.length_take, Nat.min_eq_left h]
  rw [(kept_eq regions exclusions out).2, carveAll_full exclusions h, total_eq _ _ hlen.ge,
    List.take_of_length_le hlen.le, remnants, List.map_map]
  rfl

theorem OnePieceEach.countsTruth (h : OnePieceEach regions exclusions) (out : List Span) :
    CountsTruth regions exclusions out := by
  have hone : ∀ r ∈ usable regions, pieceCount exclusions (r.start, r.endAddr) = 1 :=
    fun r hr => (h r hr).1
  have hlast : ∀ r ∈ usable regions, outlasts exclusions (r.start, r.endAddr) = 1 :=
    fun r hr => by rw [outlasts, (h r hr).2, tick_true]
  have htruth := freePieces_length regions exclusions
  have hslots := kept_add_lost regions exclusions out
  have hruns := outlasts_le_kept regions exclusions out
  rw [sum_of_ones hone] at htruth
  rw [sum_of_ones fun r hr => hone r (List.mem_of_mem_take hr)] at hslots
  rw [sum_of_ones fun r hr => hlast r (List.mem_of_mem_take hr)] at hruns
  rw [List.length_take] at hslots hruns
  rw [CountsTruth, freeRuns_count, beyond, List.length_drop]
  omega

theorem onePieceEach_of_countsTruth (h : ∀ out, CountsTruth regions exclusions out) :
    OnePieceEach regions exclusions := by
  -- an empty slice counts the regions, so there are as many pieces
  have hnone := (h []).1
  rw [freeRuns_count, kept_full (Nat.zero_le _), beyond] at hnone
  simp only [List.length_nil, List.take_zero, List.map_nil, List.sum_nil, Nat.zero_add,
    List.drop_zero] at hnone
  -- a slot for each region keeps only those that outlast the exclusions
  have hall := (h (List.replicate (usable regions).length (0, 0))).1
  rw [freeRuns_count, kept_full (by rw [List.length_replicate]), beyond, List.length_replicate,
    List.take_length, List.drop_length, List.length_nil, Nat.add_zero, ← hnone] at hall
  have hlast : ∀ r ∈ usable regions, nonEmpty (remnant exclusions (r.start, r.endAddr)) = true := by
    rw [← List.countP_eq_length, countP_eq_sum]
    exact hall
  have hpos : ∀ r ∈ usable regions, 1 ≤ pieceCount exclusions (r.start, r.endAddr) := by
    intro r hr
    have hle := outlasts_le_pieceCount exclusions (r.start, r.endAddr)
    rwa [outlasts, hlast r hr, tick_true] at hle
  rw [freePieces_length] at hnone
  exact fun r hr => ⟨ones_of_sum hpos hnone.symm r hr, hlast r hr⟩

/-- `free_runs` counts the truth at every length of the slice exactly where every usable
region leaves one piece which no split drops. At one length it does when the pieces dropped
by splits and those of the regions without a slot are as many as these regions; with a slot
for each region and each exclusion nothing is dropped. -/
theorem freeRuns_counts_iff (regions : List MemoryRegion) (exclusions : List Span) :
    ((∀ out, CountsTruth regions exclusions out) ↔ OnePieceEach regions exclusions) ∧
    (∀ out, (freeRuns regions exclusions out).1 = (freePieces regions exclusions).length ↔
      lostPieces regions exclusions out + (piecesOf exclusions (beyond regions out)).length =
        (beyond regions out).length) ∧
    (DisjointRegions regions → ∀ out,
      (usable regions).length + exclusions.length ≤ out.length →
      CountsTruth regions exclusions out) := by
  refine ⟨⟨onePieceEach_of_countsTruth, fun h out => h.countsTruth out⟩, fun out => ?_,
    fun hd out hroom => ?_⟩
  · have haccount := count_accounted regions exclusions out
    omega
  · have haccount := count_accounted regions exclusions out
    have hcount := freeRuns_count regions exclusions out
    obtain ⟨hfull, hlive⟩ := neverFull_of_slots hd hroom
    have hnone : beyond regions out = [] := List.drop_of_length_le (by omega)
    rw [lost_of_neverFull hfull, hnone] at haccount
    rw [hnone] at hcount
    simp only [piecesOf, List.flatMap_nil, List.length_nil, Nat.add_zero] at haccount hcount
    have hkept : kept regions exclusions out ≤ out.length := by
      have hcarved := carveAll_carved regions exclusions out
      exact (compact_take _ _ (hcarved.size_eq ▸ hcarved.live_le)).1.trans hcarved.live_le
    rw [CountsTruth]
    omega

/-- One region and an exclusion in its middle: two runs exist, and a slice of one slot
counts one. -/
theorem freeRuns_undercounts :
    DisjointRegions [⟨0x1000, 0x9000, .usable, by decide, by decide⟩] ∧
    ¬ ∀ out, (freeRuns [⟨0x1000, 0x9000, .usable, by decide, by decide⟩] [(0x3000, 0x1000)] out).1 =
      (freePieces [⟨0x1000, 0x9000, .usable, by decide, by decide⟩] [(0x3000, 0x1000)]).length := by
  refine ⟨List.pairwise_singleton _ _, fun h => ?_⟩
  exact absurd (h [(0, 0)]) (by decide)

end

end StarOs.Bootinfo
