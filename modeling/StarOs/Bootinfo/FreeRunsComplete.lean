import StarOs.Bootinfo.FreeRunsExact
import StarOs.Library.Counting

/-! Nothing is lost when there is room. As long as no split finds the slice full,
every address keeps the number of live entries it is in, until an exclusion covers
it. With disjoint regions that number is at most one, so at most one entry splits
at each exclusion, and one slot a region and one an exclusion are room enough. -/

namespace StarOs.Bootinfo

open Library Library.Loop

/-- Whether a run in end-coordinates has an address. -/
def holds (a : ℕ) (run : Span) : Bool := run.1 ≤ a ∧ a < run.2

theorem holds_iff {a : ℕ} {run : Span} : holds a run = true ↔ run.1 ≤ a ∧ a < run.2 := by
  simp [holds]

/-- How many live entries have an address. -/
def holders (a : ℕ) (state : ℕ × List Span) : ℕ := (state.2.take state.1).countP (holds a)

/-- The exclusion leaves a piece on each side of the run. -/
def Splits (exStart exEnd : ℕ) (run : Span) : Prop :=
  ¬(exEnd ≤ run.1 ∨ exStart ≥ run.2) ∧ 0 < (leftPiece exStart run).2 - (leftPiece exStart run).1 ∧
    0 < (rightPiece exEnd run).2 - (rightPiece exEnd run).1

/-- Neither the seeding nor any split finds the slice full. -/
def NeverFull (regions : List MemoryRegion) (exclusions out : List Span) : Prop :=
  (usable regions).length ≤ out.length ∧
  ∀ pre ex post, exclusions = pre ++ ex :: post → ex.1 < saturatingAdd ex.1 ex.2 →
    ∀ i, i < (carveAll regions pre out).1 →
      let state := forRange i (carveAt ex.1 (saturatingAdd ex.1 ex.2)) (carveAll regions pre out)
      Splits ex.1 (saturatingAdd ex.1 ex.2) (state.2.getD i (0, 0)) → state.1 < state.2.length

/-- The runs written: as many entries as the count says. -/
def written (regions : List MemoryRegion) (exclusions out : List Span) : List Span :=
  (freeRuns regions exclusions out).2.take (freeRuns regions exclusions out).1

/-! ### One entry -/

section

variable {a exStart exEnd i : ℕ} {run : Span} {state : ℕ × List Span}

theorem holders_set (piece : Span) (hlive : state.1 ≤ state.2.length) (hi : i < state.1) :
    holders a (state.1, state.2.set i piece) + tick (holds a (state.2.getD i (0, 0))) =
      holders a state + tick (holds a piece) := by
  have hget : (state.2.take state.1)[i]? = some (state.2.getD i (0, 0)) := by
    rw [List.getElem?_take_of_lt hi, List.getD_eq_getElem?_getD,
      List.getElem?_eq_getElem (by omega), Option.getD_some]
  have hcount := countP_modify (holds a) (fun _ => piece) hget
  have hset : (state.2.set i piece).take state.1 = (state.2.take state.1).modify i fun _ => piece := by
    rw [List.take_set]
    apply List.ext_getElem?
    intro n
    rw [List.getElem?_set, List.getElem?_modify]
    by_cases hn : i = n
    · subst hn
      rw [if_pos rfl, hget, if_pos (by rw [List.length_take]; omega)]
      simp
    · simp [hn]
  rw [← hset] at hcount
  exact hcount

theorem holders_append (piece : Span) (hroom : state.1 < state.2.length) :
    holders a (state.1 + 1, state.2.set state.1 piece) = holders a state + tick (holds a piece) := by
  have htake : (state.2.set state.1 piece).take (state.1 + 1) = state.2.take state.1 ++ [piece] := by
    rw [List.take_succ_eq_append_getElem (by simpa using hroom), List.take_set_of_le le_rfl]
    simp
  simp only [holders, htake, List.countP_append, List.countP_singleton, tick]

theorem carveAt_splits (h : Splits exStart exEnd (state.2.getD i (0, 0)))
    (hroom : state.1 < state.2.length) : carveAt exStart exEnd state i =
      (state.1 + 1, (state.2.set i (leftPiece exStart (state.2.getD i (0, 0)))).set state.1
        (rightPiece exEnd (state.2.getD i (0, 0)))) := by
  obtain ⟨hmeet, hleft, hright⟩ := h
  simp only [carveAt, if_neg hmeet, decide_eq_true hleft, decide_eq_true hright, if_pos hroom]

/-- A run that does not split keeps the addresses outside the exclusion. -/
theorem carveAt_whole (hi : i < state.2.length)
    (h : ¬Splits exStart exEnd (state.2.getD i (0, 0))) :
    ∃ piece, carveAt exStart exEnd state i = (state.1, state.2.set i piece) ∧
      ∀ a, ¬(exStart ≤ a ∧ a < exEnd) → holds a piece = holds a (state.2.getD i (0, 0)) := by
  refine ⟨_, carveAt_one hi fun hmeet hl hr => absurd ⟨hmeet, hl, hr⟩ h, fun a ha => ?_⟩
  generalize state.2.getD i (0, 0) = run at h
  rw [Bool.eq_iff_iff, holds_iff, holds_iff]
  obtain ⟨-, hsame⟩ | ⟨hmeet, ⟨hl, hr, -⟩ | ⟨hl, hr, hpart⟩ | ⟨hl, hr, hpart⟩ | ⟨hl, hr, hpart⟩⟩ :=
    carveFull_parts exStart exEnd run
  · rw [hsame]
  · exact absurd ⟨hmeet, hl, hr⟩ h
  all_goals
    rw [hpart]
    simp only [leftPiece, rightPiece] at hl hr ⊢
    omega

/-- With room to append, an entry loses the excluded addresses and no other. -/
theorem carveAt_holders (hex : exStart < exEnd) (ha : ¬(exStart ≤ a ∧ a < exEnd))
    (hlive : state.1 ≤ state.2.length)
    (hi : i < state.1) (hroom : Splits exStart exEnd (state.2.getD i (0, 0)) →
      state.1 < state.2.length) :
    holders a (carveAt exStart exEnd state i) = holders a state := by
  by_cases hs : Splits exStart exEnd (state.2.getD i (0, 0))
  · rw [carveAt_splits hs (hroom hs)]
    obtain ⟨hmeet, hleft, hright⟩ := hs
    generalize hrun : state.2.getD i (0, 0) = run at hmeet hleft hright ⊢
    have hset := holders_set (a := a) (leftPiece exStart run) hlive hi
    have happ := @holders_append a (state.1, state.2.set i (leftPiece exStart run)) (rightPiece exEnd run)
      (by simpa using hroom ⟨by rw [hrun]; exact hmeet, by rw [hrun]; exact hleft,
        by rw [hrun]; exact hright⟩)
    have htick : tick (holds a run) =
        tick (holds a (leftPiece exStart run)) + tick (holds a (rightPiece exEnd run)) := by
      simp only [leftPiece, rightPiece] at hleft hright
      have hor : holds a run = true ↔
          holds a (leftPiece exStart run) = true ∨ holds a (rightPiece exEnd run) = true := by
        simp only [holds_iff, leftPiece, rightPiece]
        omega
      have hnot : ¬(holds a (leftPiece exStart run) = true ∧ holds a (rightPiece exEnd run) = true) := by
        simp only [holds_iff, leftPiece, rightPiece]
        omega
      revert hor hnot
      cases holds a run <;> cases holds a (leftPiece exStart run) <;>
        cases holds a (rightPiece exEnd run) <;> simp
    rw [hrun] at hset
    dsimp only at happ
    omega
  · obtain ⟨piece, hcarve, hsame⟩ := carveAt_whole (hi.trans_le hlive) hs
    have hset := holders_set (a := a) piece hlive hi
    rw [hsame a ha] at hset
    rw [hcarve]
    omega

end

/-! ### One exclusion -/

section

variable {regions : List MemoryRegion} {pre : List Span} {ex : Span} {size a : ℕ}
  {state : ℕ × List Span}

theorem Carving.live_le_length {before i : ℕ} (h : Carving regions pre ex before size i state) :
    state.1 ≤ state.2.length := h.size_eq ▸ h.live_le

/-- An exclusion with room for its splits moves no address it does not cover. -/
theorem carve_holders (h : Carved regions size pre state) (ha : ¬Covers ex a)
    (hroom : ex.1 < saturatingAdd ex.1 ex.2 → ∀ i, i < state.1 →
      let t := forRange i (carveAt ex.1 (saturatingAdd ex.1 ex.2)) state
      Splits ex.1 (saturatingAdd ex.1 ex.2) (t.2.getD i (0, 0)) → t.1 < t.2.length) :
    holders a (carve state ex) = holders a state := by
  simp only [carve]
  split
  · rfl
  rename_i hne
  have hex : ex.1 < saturatingAdd ex.1 ex.2 := Nat.lt_of_not_le hne
  have hout : ¬(ex.1 ≤ a ∧ a < saturatingAdd ex.1 ex.2) := by
    simp only [Covers, saturatingAdd] at ha ⊢
    omega
  have hloop := forRange_invariant (n := state.1) (s := state)
    (P := fun i t => t = forRange i (carveAt ex.1 (saturatingAdd ex.1 ex.2)) state ∧
      Carving regions pre ex state.1 size i t ∧ holders a t = holders a state)
    (f := carveAt ex.1 (saturatingAdd ex.1 ex.2))
    ⟨rfl, ⟨h.size_eq, le_rfl, h.live_le, fun j hj hor => by omega, fun j hj _ => h.clear j hj⟩, rfl⟩
    (fun i hi t ht => ?_)
  · exact hloop.2.2
  · obtain ⟨heq, hcarving, hsame⟩ := ht
    have hsplit := hroom hex i hi
    rw [← heq] at hsplit
    refine ⟨by rw [forRange_succ, ← heq], hcarving.step hi, ?_⟩
    rw [carveAt_holders hex hout hcarving.live_le_length (hi.trans_le hcarving.before_le) hsplit,
      hsame]

/-- What an exclusion covers, no live entry has. -/
theorem Carved.not_held (h : Carved regions size pre state) (hex : ex ∈ pre) (ha : Covers ex a) :
    holders a state = 0 := by
  refine List.countP_eq_zero.mpr fun run hrun => ?_
  obtain ⟨j, hj, rfl⟩ := List.getElem_of_mem hrun
  rw [List.length_take] at hj
  have hclear := (h.clear j (by omega)).clear ex hex a
  rw [List.getD_eq_getElem?_getD, List.getElem?_eq_getElem (by omega), Option.getD_some] at hclear
  rw [List.getElem_take, holds_iff]
  exact fun hheld => hclear hheld.1 hheld.2 ha

theorem Splits.holds {exStart exEnd : ℕ} {run : Span} (h : Splits exStart exEnd run) :
    holds (exStart - 1) run = true ∧ holds (exStart - 1) (leftPiece exStart run) = true := by
  obtain ⟨hmeet, hleft, hright⟩ := h
  simp only [leftPiece, rightPiece] at hleft hright
  simp only [holds_iff, leftPiece]
  omega

/-- While one exclusion is carved out of entries that share no address: no more than one
of them has split, which is an entry passed already, just below the exclusion. -/
structure OneSplit (regions : List MemoryRegion) (pre : List Span) (ex : Span) (before size i : ℕ)
    (t : ℕ × List Span) : Prop where
  carving : Carving regions pre ex before size i t
  single : ∀ a, ¬Covers ex a → holders a t ≤ 1
  split : t.1 = before ∨
    t.1 = before + 1 ∧ ∃ j < i, holds (ex.1 - 1) (t.2.getD j (0, 0)) = true

theorem OneSplit.room {before i : ℕ} (h : OneSplit regions pre ex before size i state)
    (hi : i < before) (hsize : before < size)
    (hs : Splits ex.1 (saturatingAdd ex.1 ex.2) (state.2.getD i (0, 0))) :
    state.1 = before ∧ state.1 < state.2.length := by
  have hlen := h.carving.size_eq
  have hlive := h.carving.live_le_length
  obtain hsame | ⟨hmore, j, hj, hheld⟩ := h.split
  · exact ⟨hsame, by omega⟩
  · -- the entry that split and this one have the address below the exclusion
    have hget : ∀ n < state.1, (state.2.take state.1)[n]? = some (state.2.getD n (0, 0)) := by
      intro n hn
      rw [List.getElem?_take_of_lt hn, List.getD_eq_getElem?_getD,
        List.getElem?_eq_getElem (by omega), Option.getD_some]
    have htwo := two_le_countP hj (hget j (by omega)) (hget i (by omega)) hheld hs.holds.1
    have hpos : 0 < ex.1 := by
      have hleft := hs.2.1
      simp only [leftPiece] at hleft
      omega
    have hone := h.single (ex.1 - 1) (by simp only [Covers]; omega)
    simp only [holders] at hone
    omega

theorem OneSplit.step {before i : ℕ} (h : OneSplit regions pre ex before size i state)
    (hex : ex.1 < saturatingAdd ex.1 ex.2) (hi : i < before) (hsize : before < size) :
    OneSplit regions pre ex before size (i + 1)
      (carveAt ex.1 (saturatingAdd ex.1 ex.2) state i) := by
  have hlen := h.carving.size_eq
  have hlive := h.carving.live_le_length
  have hbefore := h.carving.before_le
  refine ⟨h.carving.step hi, fun a ha => ?_, ?_⟩
  · have hout : ¬(ex.1 ≤ a ∧ a < saturatingAdd ex.1 ex.2) := by
      simp only [Covers, saturatingAdd] at ha ⊢
      omega
    rw [carveAt_holders hex hout hlive (by omega) fun hs => (h.room hi hsize hs).2]
    exact h.single a ha
  · by_cases hs : Splits ex.1 (saturatingAdd ex.1 ex.2) (state.2.getD i (0, 0))
    · obtain ⟨hsame, hroom⟩ := h.room hi hsize hs
      rw [carveAt_splits hs hroom]
      refine .inr ⟨by dsimp only; omega, i, by omega, ?_⟩
      rw [getD_set_ne (by omega), getD_set_self (by omega)]
      exact hs.holds.2
    · obtain ⟨piece, hcarve, -⟩ := carveAt_whole (by omega) hs
      rw [hcarve]
      refine h.split.imp id ?_
      rintro ⟨hmore, j, hj, hheld⟩
      exact ⟨hmore, j, by omega, by rwa [getD_set_ne (by omega)]⟩

/-- An exclusion over entries that share no address needs one free slot at most. -/
theorem Carved.oneSplit (h : Carved regions size pre state)
    (hsingle : ∀ a, ¬Covers ex a → holders a state ≤ 1)
    (hex : ex.1 < saturatingAdd ex.1 ex.2) (hsize : state.1 < size) {n : ℕ} (hn : n ≤ state.1) :
    OneSplit regions pre ex state.1 size n
      (forRange n (carveAt ex.1 (saturatingAdd ex.1 ex.2)) state) := by
  refine forRange_invariant (P := OneSplit regions pre ex state.1 size)
    ⟨⟨h.size_eq, le_rfl, h.live_le, fun j hj hor => by omega, fun j hj _ => h.clear j hj⟩, hsingle,
      .inl rfl⟩ fun i hi t ht => ?_
  exact ht.step hex (by omega) hsize

theorem Carved.live_carve (h : Carved regions size pre state)
    (hsingle : ∀ a, ¬Covers ex a → holders a state ≤ 1) (hsize : state.1 < size) :
    (Bootinfo.carve state ex).1 ≤ state.1 + 1 := by
  simp only [Bootinfo.carve]
  split
  · omega
  · rename_i hne
    obtain hsame | ⟨hmore, -⟩ := (h.oneSplit hsingle (Nat.lt_of_not_le hne) hsize le_rfl).split
    · omega
    · omega

end

/-! ### All of them -/

section

variable {regions : List MemoryRegion} {exclusions pre out : List Span} {ex : Span} {a : ℕ}

/-- The usable regions that have an address. -/
def owners (a : ℕ) (regions : List MemoryRegion) : ℕ :=
  (usable regions).countP fun r => holds a (r.start, r.endAddr)

theorem carveAll_snoc (regions : List MemoryRegion) (pre : List Span) (ex : Span) (out : List Span) :
    carveAll regions (pre ++ [ex]) out = carve (carveAll regions pre out) ex := by
  simp only [carveAll, List.foldl_append, List.foldl_cons, List.foldl_nil]

theorem seed_take (regions : List MemoryRegion) (hroom : (usable regions).length ≤ out.length) :
    (seed regions out).2.take (usable regions).length =
      (usable regions).map fun r => (r.start, r.endAddr) := by
  rw [seed_taken, List.take_of_length_le hroom]

theorem seed_holders (hroom : (usable regions).length ≤ out.length) :
    holders a (carveAll regions [] out) = owners a regions := by
  simp only [holders, carveAll, List.foldl_nil, Nat.min_eq_left hroom, seed_take regions hroom,
    List.countP_map, owners]
  rfl

theorem NeverFull.earlier (h : NeverFull regions (pre ++ [ex]) out) : NeverFull regions pre out := by
  refine ⟨h.1, fun pre' ex' post heq => ?_⟩
  exact h.2 pre' ex' (post ++ [ex]) (by rw [heq]; simp)

/-- With room, an address outside the exclusions is in as many entries as it was in
regions. -/
theorem carveAll_holders (h : NeverFull regions exclusions out)
    (ha : ∀ ex ∈ exclusions, ¬Covers ex a) :
    holders a (carveAll regions exclusions out) = owners a regions := by
  induction exclusions using List.reverseRecOn with
  | nil => exact seed_holders h.1
  | append_singleton pre ex ih =>
    rw [carveAll_snoc, ← ih h.earlier fun e he => ha e (List.mem_append_left _ he)]
    exact carve_holders (carveAll_carved regions pre out) (ha ex (by simp))
      fun hex i hi => h.2 pre ex [] rfl hex i hi

/-- Regions that share no address. -/
def DisjointRegions (regions : List MemoryRegion) : Prop :=
  regions.Pairwise fun r s => ∀ a, ¬((r.start ≤ a ∧ a < r.endAddr) ∧ s.start ≤ a ∧ a < s.endAddr)

theorem owners_le_one (hd : DisjointRegions regions) (a : ℕ) : owners a regions ≤ 1 := by
  have hsub : (usable regions).Pairwise fun r s =>
      ∀ a, ¬((r.start ≤ a ∧ a < r.endAddr) ∧ s.start ≤ a ∧ a < s.endAddr) :=
    List.Pairwise.sublist List.filter_sublist hd
  unfold owners
  generalize usable regions = l at hsub ⊢
  induction l with
  | nil => simp
  | cons r l ih =>
    obtain ⟨hr, hl⟩ := List.pairwise_cons.mp hsub
    rw [List.countP_cons]
    split
    · rename_i hheld
      have hzero : l.countP (fun r => holds a (r.start, r.endAddr)) = 0 := by
        refine List.countP_eq_zero.mpr fun s hs hheld' => ?_
        exact hr s hs a ⟨holds_iff.mp hheld, holds_iff.mp hheld'⟩
      omega
    · exact ih hl

/-- No address is in two entries. -/
theorem carveAll_single (hd : DisjointRegions regions) (h : NeverFull regions exclusions out)
    (a : ℕ) : holders a (carveAll regions exclusions out) ≤ 1 := by
  by_cases ha : ∃ ex ∈ exclusions, Covers ex a
  · obtain ⟨ex, hex, hcov⟩ := ha
    rw [(carveAll_carved regions exclusions out).not_held hex hcov]
    exact Nat.zero_le _
  · rw [carveAll_holders h fun ex hex hcov => ha ⟨ex, hex, hcov⟩]
    exact owners_le_one hd a

/-- A slot for each usable region and one for each exclusion are enough. -/
theorem neverFull_of_slots (hd : DisjointRegions regions)
    (hroom : (usable regions).length + exclusions.length ≤ out.length) :
    NeverFull regions exclusions out ∧
      (carveAll regions exclusions out).1 ≤ (usable regions).length + exclusions.length := by
  induction exclusions using List.reverseRecOn with
  | nil =>
    refine ⟨⟨by simpa using hroom, fun pre ex post heq => by simp at heq⟩, ?_⟩
    simp only [carveAll, List.foldl_nil]
    omega
  | append_singleton pre ex ih =>
    rw [List.length_append, List.length_singleton] at hroom ⊢
    obtain ⟨hfull, hlive⟩ := ih (by omega)
    have hcarved := carveAll_carved regions pre out
    have hsingle := fun a (_ : ¬Covers ex a) => carveAll_single hd hfull a
    refine ⟨⟨by omega, fun pre' ex' post heq hex i hi => ?_⟩, ?_⟩
    · intro t hs
      rcases List.eq_nil_or_concat post with rfl | ⟨post', e, rfl⟩
      · obtain ⟨rfl, hlast⟩ := List.append_inj' heq rfl
        obtain rfl : ex = ex' := by simpa using hlast
        exact ((hcarved.oneSplit hsingle hex (by omega) hi.le).room hi (by omega) hs).2
      · have hpre : pre = pre' ++ ex' :: post' := by
          rw [show pre' ++ ex' :: post'.concat e = (pre' ++ ex' :: post') ++ [e] by simp] at heq
          exact (List.append_inj' heq rfl).1
        exact hfull.2 pre' ex' post' hpre hex i hi hs
    · rw [carveAll_snoc]
      have hone := hcarved.live_carve hsingle (by omega)
      omega

end

/-! ### What is written -/

/-- The compaction after `i` entries: what it has written are the runs among them. -/
theorem compact_take (live : ℕ) (out : List Span) (hlive : live ≤ out.length) :
    (compact live out).1 ≤ live ∧
    (compact live out).2.take (compact live out).1 =
      ((out.take live).filter fun run => run.1 < run.2).map fun run => (run.1, run.2 - run.1) := by
  have h := forRange_invariant (n := live)
    (P := fun i (s : ℕ × List Span) => s.1 ≤ i ∧ s.2.length = out.length ∧
      (∀ j, s.1 ≤ j → s.2.getD j (0, 0) = out.getD j (0, 0)) ∧
      s.2.take s.1 = ((out.take i).filter fun run => run.1 < run.2).map
        fun run => (run.1, run.2 - run.1))
    (f := fun s i =>
      let run := s.2.getD i (0, 0)
      if run.2 > run.1 then (s.1 + 1, s.2.set s.1 (run.1, run.2 - run.1)) else s)
    (s := (0, out)) ⟨le_rfl, rfl, fun j _ => rfl, by simp⟩ ?_
  · exact ⟨h.1, h.2.2.2⟩
  rintro i hi ⟨kept, o⟩ ⟨hki, hlen, hrest, htake⟩
  dsimp only at hki hlen hrest htake ⊢
  have hlt : i < out.length := by omega
  have hnext : out.take (i + 1) = out.take i ++ [out.getD i (0, 0)] := by
    rw [List.take_succ_eq_append_getElem hlt, List.getD_eq_getElem?_getD,
      List.getElem?_eq_getElem hlt, Option.getD_some]
  rw [hrest i hki, hnext, List.filter_append, List.map_append]
  split
  · rename_i hrun
    refine ⟨by omega, by simpa using hlen, fun j hj => ?_, ?_⟩
    · rw [getD_set_ne (by omega)]
      exact hrest j (by omega)
    · rw [List.take_succ_eq_append_getElem (by simp; omega), List.take_set_of_le le_rfl, htake,
        List.getElem_set_self, List.filter_singleton, decide_eq_true (by exact hrun), cond_true]
      rfl
  · rename_i hrun
    refine ⟨by omega, hlen, hrest, ?_⟩
    rw [htake, List.filter_singleton, decide_eq_false (by exact hrun), cond_false]
    simp

section

variable {regions : List MemoryRegion} {exclusions out : List Span} {a : ℕ}

/-- Whether a `(start, len)` pair has an address. -/
def spans (a : ℕ) (run : Span) : Bool := run.1 ≤ a ∧ a < run.1 + run.2

theorem written_eq (hroom : (usable regions).length ≤ out.length) :
    (freeRuns regions exclusions out).1 = (written regions exclusions out).length ∧
    written regions exclusions out =
      (((carveAll regions exclusions out).2.take (carveAll regions exclusions out).1).filter
        fun run => run.1 < run.2).map fun run => (run.1, run.2 - run.1) := by
  have hc := carveAll_carved regions exclusions out
  have hlive : (carveAll regions exclusions out).1 ≤ (carveAll regions exclusions out).2.length :=
    hc.size_eq ▸ hc.live_le
  obtain ⟨hkept, htake⟩ := compact_take _ _ hlive
  have hfit : (usable regions).length - out.length = 0 := by omega
  have hlen : (compact (carveAll regions exclusions out).1 (carveAll regions exclusions out).2).2.length =
      (carveAll regions exclusions out).2.length := by
    refine forRange_invariant (P := fun _ (s : ℕ × List Span) =>
      s.2.length = (carveAll regions exclusions out).2.length) rfl fun i _ s hs => ?_
    dsimp only
    split <;> simpa using hs
  simp only [written, freeRuns_eq, hfit, Nat.add_zero]
  exact ⟨by rw [List.length_take]; omega, htake⟩

/-- An address is in as many of the runs written as there are live entries it is in. -/
theorem written_holders (hroom : (usable regions).length ≤ out.length) :
    (written regions exclusions out).countP (spans a) =
      holders a (carveAll regions exclusions out) := by
  rw [(written_eq hroom).2, List.countP_map, List.countP_filter, holders]
  congr 1
  funext run
  rw [Bool.eq_iff_iff]
  simp only [Function.comp_apply, Bool.and_eq_true, decide_eq_true_eq, holds, spans]
  omega

/-- The addresses `free_runs` should find: those of a usable region, in no exclusion. -/
def FreeAddress (regions : List MemoryRegion) (exclusions : List Span) (a : ℕ) : Prop :=
  (∃ r ∈ regions, r.kind.usableAtBoot = true ∧ r.start ≤ a ∧ a < r.endAddr) ∧
    ∀ ex ∈ exclusions, ¬(ex.1 ≤ a ∧ a < saturatingAdd ex.1 ex.2)

theorem owners_pos : 0 < owners a regions ↔
    ∃ r ∈ regions, r.kind.usableAtBoot = true ∧ r.start ≤ a ∧ a < r.endAddr := by
  rw [owners, List.countP_pos_iff]
  constructor
  · rintro ⟨r, hr, hheld⟩
    simp only [usable, List.mem_filter, Bool.and_eq_true] at hr
    exact ⟨r, hr.1, hr.2.1, holds_iff.mp hheld⟩
  · rintro ⟨r, hr, hu, ha⟩
    refine ⟨r, ?_, holds_iff.mpr ha⟩
    have hlen : r.len > 0 := by
      simp only [MemoryRegion.endAddr, saturatingAdd] at ha
      omega
    simp only [usable, List.mem_filter, Bool.and_eq_true]
    exact ⟨hr, hu, decide_eq_true hlen⟩

/-- The runs written cover the free addresses and nothing else. -/
theorem written_covers (h : NeverFull regions exclusions out) (a : ℕ) :
    (∃ run ∈ written regions exclusions out, spans a run = true) ↔
      FreeAddress regions exclusions a := by
  rw [← List.countP_pos_iff, written_holders h.1, FreeAddress, ← owners_pos]
  by_cases hcov : ∃ ex ∈ exclusions, Covers ex a
  · obtain ⟨ex, hex, hcov⟩ := hcov
    rw [(carveAll_carved regions exclusions out).not_held hex hcov]
    refine iff_of_false (lt_irrefl 0) fun hfree => hfree.2 ex hex ?_
    obtain ⟨r, -, -, -, hend⟩ := owners_pos.mp hfree.1
    have hle := endAddr_le r
    simp only [Covers, saturatingAdd] at hcov ⊢
    omega
  · have hnot : ∀ ex ∈ exclusions, ¬Covers ex a := fun ex hex hc => hcov ⟨ex, hex, hc⟩
    rw [carveAll_holders h hnot]
    refine ⟨fun hpos => ⟨hpos, fun ex hex hc => hnot ex hex ?_⟩, And.left⟩
    simp only [Covers, saturatingAdd] at hc ⊢
    omega

/-- `free_runs` loses nothing when neither the seeding nor a split finds the slice full,
as with a slot for each usable region and one for each exclusion: the runs it counts are
all written, share no address, and cover the free addresses in whatever order the regions
and exclusions come. -/
theorem freeRuns_complete (regions : List MemoryRegion) (exclusions out : List Span)
    (hd : DisjointRegions regions) :
    ((usable regions).length * (exclusions.length + 1) ≤ out.length →
      NeverFull regions exclusions out) ∧
    (NeverFull regions exclusions out →
      (freeRuns regions exclusions out).1 = (written regions exclusions out).length ∧
      (written regions exclusions out).Pairwise
        (fun x y => ∀ a, ¬(spans a x = true ∧ spans a y = true)) ∧
      (∀ a, (∃ run ∈ written regions exclusions out, spans a run = true) ↔
        FreeAddress regions exclusions a) ∧
      ∀ regions' exclusions' out', regions'.Perm regions → exclusions'.Perm exclusions →
        NeverFull regions' exclusions' out' →
        ∀ a, (∃ run ∈ written regions' exclusions' out', spans a run = true) ↔
          ∃ run ∈ written regions exclusions out, spans a run = true) := by
  refine ⟨fun hroom => ?_, fun hfull => ⟨(written_eq hfull.1).1, ?_, written_covers hfull, ?_⟩⟩
  · rcases Nat.eq_zero_or_pos (usable regions).length with hnone | hsome
    · refine ⟨by omega, fun pre ex post heq hex i hi => ?_⟩
      -- with no usable region there is no entry to split
      have hempty : ∀ l : List Span, (carveAll regions l out).1 = 0 := by
        intro l
        refine foldl_invariant (P := fun _ (s : ℕ × List Span) => s.1 = 0) l (by simp [hnone]) ?_
        intro pre ex _ s hs
        simp only [carve, hs, forRange_zero, ite_self]
      rw [hempty] at hi
      exact absurd hi (Nat.not_lt_zero i)
    · refine (neverFull_of_slots hd (hroom.trans' ?_)).1
      have hmul := Nat.le_mul_of_pos_left exclusions.length hsome
      rw [Nat.mul_succ]
      omega
  · refine pairwise_of_countP_le_one fun a => ?_
    rw [written_holders hfull.1]
    exact carveAll_single hd hfull a
  · intro regions' exclusions' out' hr he hfull' a
    rw [written_covers hfull, written_covers hfull']
    simp only [FreeAddress, hr.mem_iff, he.mem_iff]

/-- An exclusion in the middle of a region leaves both of its ends. -/
theorem freeRuns_complete_middle :
    ∃ run ∈ written [⟨0x1000, 0x9000, .usable, by decide, by decide⟩] [(0x3000, 0x1000)]
      [(0, 0), (0, 0)], spans 0x9fff run = true := by
  obtain ⟨hroom, hall⟩ := freeRuns_complete [⟨0x1000, 0x9000, .usable, by decide, by decide⟩]
    [(0x3000, 0x1000)] [(0, 0), (0, 0)] (List.pairwise_singleton _ _)
  refine ((hall (hroom (by decide))).2.2.1 0x9fff).mpr ⟨⟨_, List.mem_singleton.mpr rfl, ?_⟩, ?_⟩
  · decide
  · decide

end

end StarOs.Bootinfo
