import Mathlib.Data.Set.Card
import Mathlib.Order.Interval.Finset.Nat
import StarOs.Bootinfo.FreeRunsComplete

/-! Where the written runs start, and how many addresses they are. A run starts where a usable
region does or where an exclusion that cut one ends; as runs share no address, their lengths
add up to the number of free addresses. -/

namespace StarOs.Bootinfo

open Library Library.Loop

/-- Every live entry has the property. -/
def Each (p : Span → Prop) (state : ℕ × List Span) : Prop :=
  state.1 ≤ state.2.length ∧ ∀ j < state.1, p (state.2.getD j (0, 0))

/-- What carving keeps of a run has the property of the run. -/
structure Pieces (p : Span → Prop) (exStart exEnd : ℕ) : Prop where
  left : ∀ run, p run → ¬(exEnd ≤ run.1 ∨ exStart ≥ run.2) → p (leftPiece exStart run)
  right : ∀ run, p run → ¬(exEnd ≤ run.1 ∨ exStart ≥ run.2) →
    0 < (rightPiece exEnd run).2 - (rightPiece exEnd run).1 → p (rightPiece exEnd run)
  swallowed : ∀ run, p run → p (run.1, run.1)

section

variable {p : Span → Prop} {exStart exEnd i : ℕ} {state : ℕ × List Span}

theorem Each.set (h : Each p state) (hi : i < state.1) {piece : Span} (hp : p piece) :
    Each p (state.1, state.2.set i piece) := by
  refine ⟨by simpa using h.1, fun j hj => ?_⟩
  by_cases hij : i = j
  · subst hij
    rw [getD_set_self (hi.trans_le h.1)]
    exact hp
  · rw [getD_set_ne hij]
    exact h.2 j hj

theorem Each.append (h : Each p state) (hroom : state.1 < state.2.length) {piece : Span}
    (hp : p piece) : Each p (state.1 + 1, state.2.set state.1 piece) := by
  refine ⟨by simpa using hroom, fun j hj => ?_⟩
  by_cases hj' : state.1 = j
  · subst hj'
    rw [getD_set_self hroom]
    exact hp
  · rw [getD_set_ne hj']
    exact h.2 j (by dsimp only at hj; omega)

theorem Each.carveAt (h : Each p state) (hc : Pieces p exStart exEnd) (hi : i < state.1) :
    Each p (carveAt exStart exEnd state i) ∧ state.1 ≤ (Bootinfo.carveAt exStart exEnd state i).1 := by
  obtain ⟨live, out⟩ := state
  have hrun := h.2 i hi
  simp only [Bootinfo.carveAt]
  split
  · exact ⟨h, le_rfl⟩
  · next hmeet =>
    have hleft := h.set hi (hc.left _ hrun hmeet)
    split
    · next hpos =>
      have hright := hc.right _ hrun hmeet (of_decide_eq_true hpos)
      split
      · next hroom => exact ⟨hleft.append (by simpa using hroom) hright, Nat.le_succ _⟩
      · split
        · exact ⟨hleft, le_rfl⟩
        · exact ⟨h.set hi hright, le_rfl⟩
    · exact ⟨hleft, le_rfl⟩
    · next hpos =>
      exact ⟨h.set hi (hc.right _ hrun hmeet (of_decide_eq_true hpos)), le_rfl⟩
    · exact ⟨h.set hi (hc.swallowed _ hrun), le_rfl⟩

theorem Each.carve (h : Each p state) {ex : Span}
    (hc : ex.1 < saturatingAdd ex.1 ex.2 → Pieces p ex.1 (saturatingAdd ex.1 ex.2)) :
    Each p (carve state ex) := by
  unfold Bootinfo.carve
  dsimp only
  split
  · exact h
  · next hex =>
    refine (forRange_invariant (P := fun _ s => Each p s ∧ state.1 ≤ s.1) ⟨h, le_rfl⟩ ?_).1
    intro i hi s hs
    obtain ⟨hnext, hgrow⟩ := hs.1.carveAt (hc (by omega)) (hi.trans_le hs.2)
    exact ⟨hnext, hs.2.trans hgrow⟩

end

/-- An exclusion cuts usable memory. -/
def Cuts (regions : List MemoryRegion) (ex : Span) : Prop :=
  ∃ r ∈ regions, r.kind.usableAtBoot = true ∧
    ∃ a, (r.start ≤ a ∧ a < r.endAddr) ∧ ex.1 ≤ a ∧ a < saturatingAdd ex.1 ex.2

/-- A run, possibly empty, that starts where it may. -/
structure Started (regions : List MemoryRegion) (exclusions : List Span) (run : Span) : Prop where
  inside : run.1 < run.2 →
    ∃ r ∈ regions, r.kind.usableAtBoot = true ∧ r.start ≤ run.1 ∧ run.2 ≤ r.endAddr
  start : (∃ r ∈ usable regions, run.1 = r.start) ∨
    ∃ ex ∈ exclusions, Cuts regions ex ∧ run.1 = saturatingAdd ex.1 ex.2

section

variable {regions : List MemoryRegion} {exclusions out : List Span}

theorem Started.pieces {ex : Span} (hmem : ex ∈ exclusions)
    (hex : ex.1 < saturatingAdd ex.1 ex.2) :
    Pieces (Started regions exclusions) ex.1 (saturatingAdd ex.1 ex.2) := by
  constructor
  · intro run hrun hmeet
    refine ⟨fun hlt => ?_, hrun.start⟩
    simp only [leftPiece] at hlt ⊢
    obtain ⟨r, hr, hu, hlo, hhi⟩ := hrun.inside (by omega)
    exact ⟨r, hr, hu, hlo, by omega⟩
  · intro run hrun hmeet hpos
    simp only [rightPiece] at hpos ⊢
    obtain ⟨r, hr, hu, hlo, hhi⟩ := hrun.inside (by omega)
    have hstart : max (min (saturatingAdd ex.1 ex.2) run.2) run.1 = saturatingAdd ex.1 ex.2 := by
      omega
    rw [hstart] at hpos ⊢
    refine ⟨fun _ => ⟨r, hr, hu, ?_, hhi⟩, .inr ⟨ex, hmem, ?_, rfl⟩⟩
    · dsimp only
      omega
    · exact ⟨r, hr, hu, max ex.1 run.1, by omega, by omega⟩
  · exact fun run hrun => ⟨fun hlt => absurd hlt (lt_irrefl _), hrun.start⟩

theorem carveAll_started (regions : List MemoryRegion) (exclusions out : List Span) :
    Each (Started regions exclusions) (carveAll regions exclusions out) := by
  obtain ⟨-, hlen, hget⟩ := seed_eq regions out
  refine foldl_invariant (P := fun _ s => Each (Started regions exclusions) s) exclusions
    ⟨?_, ?_⟩ ?_
  · dsimp only
    omega
  · intro j hj
    have hju : j < (usable regions).length := by dsimp only at hj; omega
    have hjo : j < out.length := by dsimp only at hj; omega
    have hr := hget j hju hjo
    rw [List.getElem?_eq_getElem hju, Option.map_some] at hr
    dsimp only
    rw [List.getD_eq_getElem?_getD, hr, Option.getD_some]
    have hmem := List.getElem_mem hju
    refine ⟨fun _ => ?_, .inl ⟨_, hmem, rfl⟩⟩
    simp only [usable, List.mem_filter, Bool.and_eq_true, decide_eq_true_eq] at hmem
    exact ⟨_, hmem.1, hmem.2.1, le_rfl, le_rfl⟩
  · intro pre ex hpre s hs
    exact hs.carve fun hex => Started.pieces (hpre.subset (by simp)) hex

/-- The entry a written run was before it was converted. -/
theorem live_of_written (hroom : (usable regions).length ≤ out.length) {run : Span}
    (hrun : run ∈ written regions exclusions out) :
    ∃ j < (carveAll regions exclusions out).1,
      let live := (carveAll regions exclusions out).2.getD j (0, 0)
      live.1 < live.2 ∧ run = (live.1, live.2 - live.1) := by
  rw [(written_eq hroom).2] at hrun
  obtain ⟨live, hlive, rfl⟩ := List.mem_map.mp hrun
  obtain ⟨hmem, hlt⟩ := List.mem_filter.mp hlive
  obtain ⟨j, hj, rfl⟩ := List.mem_iff_getElem.mp hmem
  rw [List.length_take] at hj
  refine ⟨j, by omega, ?_⟩
  rw [List.getElem_take] at hlt ⊢
  have hget : (carveAll regions exclusions out).2.getD j (0, 0) =
      (carveAll regions exclusions out).2[j] := by
    rw [List.getD_eq_getElem?_getD, List.getElem?_eq_getElem (by omega), Option.getD_some]
  rw [hget]
  exact ⟨of_decide_eq_true hlt, rfl⟩

theorem written_free (hroom : (usable regions).length ≤ out.length) {run : Span}
    (hrun : run ∈ written regions exclusions out) : Free regions exclusions run := by
  obtain ⟨j, hj, hlt, rfl⟩ := live_of_written hroom hrun
  have hclear := (carveAll_carved regions exclusions out).clear j hj
  obtain ⟨r, hr, hu, hlo, hhi⟩ := hclear.inside hlt
  refine ⟨?_, ⟨r, hr, hu, hlo, ?_⟩, fun ex hex a hlo hhi => hclear.clear ex hex a hlo ?_⟩
  · dsimp only
    omega
  · dsimp only
    omega
  · dsimp only at hhi
    omega

theorem written_start (hroom : (usable regions).length ≤ out.length) {run : Span}
    (hrun : run ∈ written regions exclusions out) :
    (∃ r ∈ usable regions, run.1 = r.start) ∨
      ∃ ex ∈ exclusions, Cuts regions ex ∧ run.1 = saturatingAdd ex.1 ex.2 := by
  obtain ⟨j, hj, -, rfl⟩ := live_of_written hroom hrun
  exact ((carveAll_started regions exclusions out).2 j hj).start

end

/-- Runs that share no address have as many as their lengths add up to. -/
theorem sum_eq_ncard {l : List Span}
    (h : l.Pairwise fun x y => ∀ a, ¬(spans a x = true ∧ spans a y = true)) :
    (l.map Prod.snd).sum = Set.ncard {a | ∃ run ∈ l, spans a run = true} ∧
      Set.Finite {a | ∃ run ∈ l, spans a run = true} := by
  induction l with
  | nil => simp
  | cons run l ih =>
    obtain ⟨hfirst, hrest⟩ := List.pairwise_cons.mp h
    obtain ⟨hsum, hfinite⟩ := ih hrest
    have hrun : {a | spans a run = true} = ↑(Finset.Ico run.1 (run.1 + run.2)) := by
      ext a
      simp [spans]
    have hunion : {a | ∃ x ∈ run :: l, spans a x = true} =
        {a | spans a run = true} ∪ {a | ∃ x ∈ l, spans a x = true} := by
      ext a
      simp
    have hdisj : Disjoint {a | spans a run = true} {a | ∃ x ∈ l, spans a x = true} := by
      refine Set.disjoint_left.mpr ?_
      rintro a ha ⟨x, hx, hax⟩
      exact hfirst x hx a ⟨ha, hax⟩
    have hfin : Set.Finite {a | spans a run = true} := hrun ▸ Finset.finite_toSet _
    rw [hunion]
    refine ⟨?_, hfin.union hfinite⟩
    rw [Set.ncard_union_eq hdisj hfin hfinite, ← hsum, hrun, Set.ncard_coe_finset, Nat.card_Ico,
      List.map_cons, List.sum_cons]
    omega

end StarOs.Bootinfo
