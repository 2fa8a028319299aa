import StarOs.Bootinfo.FreeRunsSound

/-! The compaction, and exactly when what `free_runs` reports is free. When every
usable region has a slot the count equals the number of compacted entries. When
some do not, the slice stays full, every entry is carved on its own, and the
count runs past the compacted entries by as many as never fitted. -/

namespace StarOs.Bootinfo

open Library.Loop

/-- What the inner loop leaves of one entry when there is no room to append. -/
def carveFull (exStart exEnd : ℕ) (run : Span) : Span :=
  if exEnd ≤ run.1 ∨ exStart ≥ run.2 then run
  else
    let left := leftPiece exStart run
    let right := rightPiece exEnd run
    match decide (left.2 - left.1 > 0), decide (right.2 - right.1 > 0) with
    | true, true => if left.2 - left.1 ≥ right.2 - right.1 then left else right
    | true, false => left
    | false, true => right
    | false, false => (run.1, run.1)

/-- What is left of one run after every exclusion, keeping the larger piece of
each split. -/
def remnant (exclusions : List Span) (run : Span) : Span :=
  exclusions.foldl (fun run ex =>
    if saturatingAdd ex.1 ex.2 ≤ ex.1 then run
    else carveFull ex.1 (saturatingAdd ex.1 ex.2) run) run

/-- The runs of the first `size` usable regions, each carved on its own. -/
def remnants (regions : List MemoryRegion) (exclusions : List Span) (size : ℕ) : List Span :=
  ((usable regions).take size).map fun r => remnant exclusions (r.start, r.endAddr)

/-- How many of them are not swallowed. -/
def survivors (regions : List MemoryRegion) (exclusions : List Span) (size : ℕ) : ℕ :=
  (remnants regions exclusions size).countP fun run => decide (run.2 > run.1)

/-- A run whose end, read as a length, still names free memory: it is not empty,
and the stretch past its end as long as its start address is in the same usable
region as the run and clear of the exclusions. A run at address zero is one. -/
def SlackPast (regions : List MemoryRegion) (exclusions : List Span) (run : Span) : Prop :=
  run.1 < run.2 ∧
  (∃ r ∈ regions, r.kind.usableAtBoot = true ∧ r.start ≤ run.1 ∧ run.1 + run.2 ≤ r.endAddr) ∧
  ∀ ex ∈ exclusions, ∀ a, run.2 ≤ a → a < run.1 + run.2 → ¬ Covers ex a

/-! ### Compaction -/

/-- The compaction's state after `i` entries of `out`. -/
structure Compacting (out : List Span) (i : ℕ) (state : ℕ × List Span) : Prop where
  length_eq : state.2.length = out.length
  kept_eq : state.1 = (out.take i).countP fun run => decide (run.2 > run.1)
  converted : ∀ j < state.1, ∃ k < i, (out.getD k (0, 0)).1 < (out.getD k (0, 0)).2 ∧
    state.2.getD j (0, 0) = ((out.getD k (0, 0)).1, (out.getD k (0, 0)).2 - (out.getD k (0, 0)).1)
  rest : ∀ j, state.1 ≤ j → state.2.getD j (0, 0) = out.getD j (0, 0)

theorem countP_take_succ {out : List Span} {i : ℕ} (hi : i < out.length) (p : Span → Bool) :
    (out.take (i + 1)).countP p = (out.take i).countP p + if p (out.getD i (0, 0)) then 1 else 0 := by
  rw [List.take_succ_eq_append_getElem hi, List.countP_append, List.countP_singleton,
    List.getD_eq_getElem?_getD, List.getElem?_eq_getElem hi, Option.getD_some]

theorem compact_spec (live : ℕ) (out : List Span) (hlive : live ≤ out.length) :
    Compacting out live (compact live out) := by
  refine forRange_invariant (P := Compacting out) ⟨rfl, by simp, by simp, fun j _ => rfl⟩ ?_
  rintro i hi ⟨kept, o⟩ ⟨hlen, hkept, hconv, hrest⟩
  dsimp only at hlen hkept hconv hrest ⊢
  have hki : kept ≤ i := by
    rw [hkept]
    exact List.countP_le_length.trans (List.length_take_le _ _)
  rw [hrest i hki]
  split
  next hlt =>
    refine ⟨by simpa using hlen, ?_, ?_, ?_⟩
    · rw [countP_take_succ (by omega), if_pos (decide_eq_true hlt), hkept]
    · intro j hj
      by_cases hjk : kept = j
      · subst hjk
        exact ⟨i, by omega, hlt, getD_set_self (by omega) _ _⟩
      · dsimp only at hj
        obtain ⟨k, hk, hlt', he⟩ := hconv j (by omega)
        exact ⟨k, by omega, hlt', by rw [getD_set_ne hjk, he]⟩
    · intro j hj
      dsimp only at hj
      rw [getD_set_ne (by omega)]
      exact hrest j (by omega)
  next hle =>
    refine ⟨hlen, ?_, ?_, hrest⟩
    · rw [countP_take_succ (by omega), if_neg (by simpa using hle), hkept, Nat.add_zero]
    · intro j hj
      obtain ⟨k, hk, h⟩ := hconv j hj
      exact ⟨k, by omega, h⟩

/-- The compacted entries are free. -/
theorem compact_free {regions : List MemoryRegion} {exclusions : List Span} {size : ℕ}
    {state : ℕ × List Span} (h : Carved regions size exclusions state) {j : ℕ}
    (hj : j < (compact state.1 state.2).1) :
    Free regions exclusions ((compact state.1 state.2).2.getD j (0, 0)) := by
  have hlen := h.size_eq
  have hle := h.live_le
  obtain ⟨k, hk, hlt, he⟩ := (compact_spec state.1 state.2 (by omega)).converted j hj
  have hc := h.clear k hk
  rw [he]
  refine ⟨by dsimp only; omega, ?_, ?_⟩
  · obtain ⟨r, hr, hu, hs, hend⟩ := hc.inside hlt
    exact ⟨r, hr, hu, hs, by dsimp only; omega⟩
  · intro ex hex a h1 h2
    dsimp only at h1 h2
    exact hc.clear ex hex a h1 (by omega)

/-! ### A full slice -/

/-- What one exclusion leaves of a run. -/
theorem carveFull_parts (exStart exEnd : ℕ) (run : Span) :
    (exEnd ≤ run.1 ∨ exStart ≥ run.2) ∧ carveFull exStart exEnd run = run ∨
    ¬(exEnd ≤ run.1 ∨ exStart ≥ run.2) ∧
      (0 < (leftPiece exStart run).2 - (leftPiece exStart run).1 ∧
        0 < (rightPiece exEnd run).2 - (rightPiece exEnd run).1 ∧
        (carveFull exStart exEnd run = leftPiece exStart run ∨
          carveFull exStart exEnd run = rightPiece exEnd run) ∨
      0 < (leftPiece exStart run).2 - (leftPiece exStart run).1 ∧
        ¬0 < (rightPiece exEnd run).2 - (rightPiece exEnd run).1 ∧
        carveFull exStart exEnd run = leftPiece exStart run ∨
      ¬0 < (leftPiece exStart run).2 - (leftPiece exStart run).1 ∧
        0 < (rightPiece exEnd run).2 - (rightPiece exEnd run).1 ∧
        carveFull exStart exEnd run = rightPiece exEnd run ∨
      ¬0 < (leftPiece exStart run).2 - (leftPiece exStart run).1 ∧
        ¬0 < (rightPiece exEnd run).2 - (rightPiece exEnd run).1 ∧
        carveFull exStart exEnd run = (run.1, run.1)) := by
  by_cases hmeet : exEnd ≤ run.1 ∨ exStart ≥ run.2
  · exact .inl ⟨hmeet, if_pos hmeet⟩
  · refine .inr ⟨hmeet, ?_⟩
    simp only [carveFull, if_neg hmeet]
    by_cases hl : 0 < (leftPiece exStart run).2 - (leftPiece exStart run).1
    · by_cases hr : 0 < (rightPiece exEnd run).2 - (rightPiece exEnd run).1
      · refine .inl ⟨hl, hr, ?_⟩
        simp only [decide_eq_true hl, decide_eq_true hr]
        split
        · exact .inl rfl
        · exact .inr rfl
      · exact .inr (.inl ⟨hl, hr, by simp only [decide_eq_true hl, decide_eq_false hr]⟩)
    · by_cases hr : 0 < (rightPiece exEnd run).2 - (rightPiece exEnd run).1
      · exact .inr (.inr (.inl ⟨hl, hr, by simp only [decide_eq_false hl, decide_eq_true hr]⟩))
      · exact .inr (.inr (.inr ⟨hl, hr, by simp only [decide_eq_false hl, decide_eq_false hr]⟩))

/-- An entry is carved in place unless it splits with room for its second part. -/
theorem carveAt_one {exStart exEnd i : ℕ} {state : ℕ × List Span} (hi : i < state.2.length)
    (h : ¬(exEnd ≤ (state.2.getD i (0, 0)).1 ∨ exStart ≥ (state.2.getD i (0, 0)).2) →
      0 < (leftPiece exStart (state.2.getD i (0, 0))).2 -
        (leftPiece exStart (state.2.getD i (0, 0))).1 →
      0 < (rightPiece exEnd (state.2.getD i (0, 0))).2 -
        (rightPiece exEnd (state.2.getD i (0, 0))).1 → ¬state.1 < state.2.length) :
    carveAt exStart exEnd state i =
      (state.1, state.2.set i (carveFull exStart exEnd (state.2.getD i (0, 0)))) := by
  generalize hrun : state.2.getD i (0, 0) = run at h
  by_cases hmeet : exEnd ≤ run.1 ∨ exStart ≥ run.2
  · simp only [carveAt, carveFull, hrun, if_pos hmeet]
    rw [← hrun, List.getD_eq_getElem?_getD, List.getElem?_eq_getElem hi, Option.getD_some,
      List.set_getElem_self]
  · simp only [carveAt, carveFull, hrun, if_neg hmeet]
    by_cases hleft : 0 < (leftPiece exStart run).2 - (leftPiece exStart run).1
    · by_cases hright : 0 < (rightPiece exEnd run).2 - (rightPiece exEnd run).1
      · simp only [decide_eq_true hleft, decide_eq_true hright, if_neg (h hmeet hleft hright)]
      · simp only [decide_eq_true hleft, decide_eq_false hright]
    · by_cases hright : 0 < (rightPiece exEnd run).2 - (rightPiece exEnd run).1
      · simp only [decide_eq_false hleft, decide_eq_true hright]
      · simp only [decide_eq_false hleft, decide_eq_false hright]

theorem carveAt_full (exStart exEnd : ℕ) {out : List Span} {i : ℕ} (hi : i < out.length) :
    carveAt exStart exEnd (out.length, out) i =
      (out.length, out.set i (carveFull exStart exEnd (out.getD i (0, 0)))) :=
  carveAt_one hi fun _ _ _ => lt_irrefl out.length

theorem carveLoop_full {exStart exEnd : ℕ} {out : List Span} {n : ℕ} (hn : n ≤ out.length) :
    forRange n (carveAt exStart exEnd) (out.length, out) =
      (out.length, (out.take n).map (carveFull exStart exEnd) ++ out.drop n) := by
  induction n with
  | zero => simp
  | succ n ih =>
    have hlt : n < out.length := by omega
    have htake : ((out.take n).map (carveFull exStart exEnd)).length = n := by simp; omega
    rw [forRange_succ, ih (by omega), List.drop_eq_getElem_cons hlt]
    set mid := (out.take n).map (carveFull exStart exEnd) ++ out[n] :: out.drop (n + 1) with hmid
    have hlen : mid.length = out.length := by simp [mid]; omega
    have hget : mid.getD n (0, 0) = out[n] := by
      rw [List.getD_eq_getElem?_getD, hmid, List.getElem?_append_right htake.le, htake,
        Nat.sub_self, List.getElem?_cons_zero, Option.getD_some]
    have h := carveAt_full exStart exEnd (show n < mid.length by omega)
    rw [hlen, hget] at h
    rw [h, hmid, List.set_append_right _ _ htake.le, htake, List.take_succ_eq_append_getElem hlt,
      Nat.sub_self, List.set_cons_zero, List.map_append, List.append_assoc]
    rfl

theorem carve_full (out : List Span) (ex : Span) :
    carve (out.length, out) ex = (out.length, out.map fun run => remnant [ex] run) := by
  simp only [carve, remnant, List.foldl_cons, List.foldl_nil]
  split
  · simp
  · rw [carveLoop_full le_rfl]
    simp

theorem foldl_carve_full (exclusions : List Span) (out : List Span) :
    exclusions.foldl carve (out.length, out) =
      (out.length, out.map (remnant exclusions)) := by
  induction exclusions generalizing out with
  | nil =>
    have hid : remnant [] = id := rfl
    rw [hid, List.map_id]
    rfl
  | cons ex rest ih =>
    have h := ih (out.map fun run => remnant [ex] run)
    rw [List.length_map] at h
    rw [List.foldl_cons, carve_full, h, List.map_map]
    rfl

/-- When not every usable region has a slot, the entries are the carved runs of
those that do. -/
theorem carveAll_full {regions : List MemoryRegion} (exclusions : List Span) {out : List Span}
    (h : out.length ≤ (usable regions).length) :
    carveAll regions exclusions out = (out.length, remnants regions exclusions out.length) := by
  obtain ⟨-, hlen, -⟩ := seed_eq regions out
  have hseed := seed_taken regions out
  rw [List.take_of_length_le (by omega)] at hseed
  have hfull := foldl_carve_full exclusions (seed regions out).2
  rw [hlen] at hfull
  rw [carveAll, Nat.min_eq_right h, hfull, hseed, remnants, List.map_map]
  rfl

/-! ### The exact condition -/

/-- A run that is not empty stays so, or an exclusion covering its start swallows it. -/
theorem carveFull_cases {exStart exEnd : ℕ} {run : Span} (hlt : run.1 < run.2) :
    (carveFull exStart exEnd run).1 < (carveFull exStart exEnd run).2 ∨
    carveFull exStart exEnd run = (run.1, run.1) ∧ exStart ≤ run.1 ∧ run.1 < exEnd := by
  obtain ⟨-, hsame⟩ | ⟨hmeet, ⟨hl, hr, hpart | hpart⟩ | ⟨hl, -, hpart⟩ | ⟨-, hr, hpart⟩ |
    ⟨hl, -, hpart⟩⟩ := carveFull_parts exStart exEnd run
  · left
    rwa [hsame]
  · left
    rw [hpart]
    omega
  · left
    rw [hpart]
    omega
  · left
    rw [hpart]
    omega
  · left
    rw [hpart]
    omega
  · right
    simp only [leftPiece] at hl
    exact ⟨hpart, by omega, by omega⟩

theorem carveFull_of_empty {exStart exEnd : ℕ} {run : Span} (h : run.1 = run.2) :
    carveFull exStart exEnd run = run := by
  obtain ⟨s, e⟩ := run
  dsimp only at h
  subst h
  simp only [carveFull, leftPiece, rightPiece]
  split
  · rfl
  · have hl : min (max exStart s) s - s = 0 := by omega
    have hr : s - max (min exEnd s) s = 0 := by omega
    simp only [hl, hr, gt_iff_lt, Nat.lt_irrefl, decide_false]

/-- An empty entry sits at an address some exclusion covers, or at the top of the
address space, where a saturated region has no bytes. -/
def EmptyAt (exclusions : List Span) (run : Span) : Prop :=
  run.1 = run.2 ∧ ((∃ ex ∈ exclusions, Covers ex run.1) ∨ run.1 = u64Max)

theorem remnant_cases (exclusions : List Span) {run : Span}
    (h : run.1 < run.2 ∨ EmptyAt [] run) :
    (remnant exclusions run).1 < (remnant exclusions run).2 ∨
      EmptyAt exclusions (remnant exclusions run) := by
  refine foldl_invariant (P := fun done (r : Span) => r.1 < r.2 ∨ EmptyAt done r) exclusions h ?_
  rintro pre ex - r (hr | ⟨hr, hwhy⟩)
  · split
    · exact .inl hr
    · rcases carveFull_cases hr with h | ⟨h, hs, hend⟩
      · exact .inl h
      · rw [h]
        refine .inr ⟨rfl, .inl ⟨ex, by simp, hs, ?_⟩⟩
        simp only [saturatingAdd] at hend
        dsimp only
        omega
  · rw [carveFull_of_empty hr, ite_self]
    refine .inr ⟨hr, hwhy.imp_left ?_⟩
    rintro ⟨e, he, hc⟩
    exact ⟨e, List.mem_append_left _ he, hc⟩

/-- A clear run reads as free with its end taken for a length exactly when the
stretch past its end is free too. -/
theorem Clear.free_iff {regions : List MemoryRegion} {exclusions : List Span} {run : Span}
    (h : Clear regions exclusions run) (hex : run.1 < run.2 ∨ EmptyAt exclusions run) :
    Free regions exclusions run ↔ SlackPast regions exclusions run := by
  have hle := h.le
  constructor
  · rintro ⟨hpos, hin, hclear⟩
    refine ⟨?_, hin, fun e he a h1 h2 => hclear e he a (by omega) h2⟩
    rcases hex with hlt | ⟨heq, ⟨e, he, hc⟩ | htop⟩
    · exact hlt
    · exact absurd hc (hclear e he run.1 le_rfl (by omega))
    · obtain ⟨r, -, -, -, hend⟩ := hin
      have := endAddr_le r
      omega
  · rintro ⟨hlt, hin, hpast⟩
    refine ⟨by omega, hin, fun e he a h1 h2 => ?_⟩
    rcases Nat.lt_or_ge a run.2 with ha | ha
    · exact h.clear e he a h1 ha
    · exact hpast e he a ha h2

theorem span_of_usable {regions : List MemoryRegion} {r : MemoryRegion}
    (h : r ∈ usable regions) : r.start < r.endAddr ∨ EmptyAt [] (r.start, r.endAddr) := by
  simp only [usable, List.mem_filter, Bool.and_eq_true, decide_eq_true_eq] at h
  have := r.start_le
  simp only [EmptyAt, MemoryRegion.endAddr, saturatingAdd]
  omega

/-- `free_runs` reports only free memory exactly when every usable region got a
slot, or every slot the count covers past the surviving runs happens to hold a
run with free memory past its end. -/
theorem freeRuns_reports_free_iff (regions : List MemoryRegion) (exclusions out : List Span) :
    ReportsFree regions exclusions out ↔
      (usable regions).length ≤ out.length ∨
      ∀ j, survivors regions exclusions out.length ≤ j →
        j < min (survivors regions exclusions out.length +
          ((usable regions).length - out.length)) out.length →
        SlackPast regions exclusions ((remnants regions exclusions out.length).getD j (0, 0)) := by
  have hc := carveAll_carved regions exclusions out
  have hsize := hc.size_eq
  have hlive := hc.live_le
  have hspec := compact_spec (carveAll regions exclusions out).1
    (carveAll regions exclusions out).2 (by omega)
  have hfree := fun j => @compact_free _ _ _ _ hc j
  rw [ReportsFree, freeRuns_eq]
  rcases Nat.le_total (usable regions).length out.length with hroom | hfull
  · refine iff_of_true (fun j hj => hfree j ?_) (.inl hroom)
    dsimp only at hj
    omega
  · -- the slice is full: entries past the compacted ones are untouched remnants
    have hall := carveAll_full exclusions hfull
    have hrest := hspec.rest
    have hkept := hspec.kept_eq
    rw [hall] at hkept hrest hfree hc ⊢
    dsimp only at hkept hrest hfree ⊢
    have hlen : (remnants regions exclusions out.length).length = out.length := by
      simp [remnants]; omega
    rw [List.take_of_length_le hlen.le] at hkept
    change _ = survivors regions exclusions out.length at hkept
    rw [hkept] at hrest hfree ⊢
    have hiff : ∀ j, survivors regions exclusions out.length ≤ j → j < out.length →
        (Free regions exclusions ((compact out.length
          (remnants regions exclusions out.length)).2.getD j (0, 0)) ↔
        SlackPast regions exclusions ((remnants regions exclusions out.length).getD j (0, 0))) := by
      intro j hk hj
      rw [hrest j hk]
      refine (hc.clear j hj).free_iff ?_
      dsimp only
      have hju : j < (usable regions).length := by omega
      have hget : (remnants regions exclusions out.length).getD j (0, 0) =
          remnant exclusions ((usable regions)[j].start, (usable regions)[j].endAddr) := by
        rw [List.getD_eq_getElem?_getD, remnants, List.getElem?_map, List.getElem?_take,
          if_pos hj, List.getElem?_eq_getElem hju]
        rfl
      rw [hget]
      exact remnant_cases exclusions (span_of_usable (List.getElem_mem hju))
    constructor
    · intro h
      exact .inr fun j hk hj => (hiff j hk (by omega)).mp (h j hj)
    · rintro (hroom | h) j hj
      · exact hfree j (by omega)
      · rcases Nat.lt_or_ge j (survivors regions exclusions out.length) with hk | hk
        · exact hfree j hk
        · exact (hiff j hk (by omega)).mpr (h j hk hj)

/-- Two usable regions, one slot, and an exclusion over the first region: the
entry reported is the excluded memory itself. -/
theorem freeRuns_reports_excluded :
    ¬ ReportsFree
      [⟨0x1000, 0x1000, .usable, by decide, by decide⟩,
        ⟨0x5000, 0x1000, .usable, by decide, by decide⟩]
      [(0x1000, 0x1000)] [(0, 0)] := by
  intro h
  have hfree := (h 0 (by decide)).2.2 (0x1000, 0x1000) (by simp) 0x1000
  exact hfree (by decide) (by decide) ⟨le_rfl, by decide⟩

end StarOs.Bootinfo
