import StarOs.Paging.Tree

/-! What installing one leaf does to the tree. The walk to it may create tables and widen
entries, neither of which any translation sees; then one entry is overwritten. The change
is stated for the part of the tree below an entry, and grafted level by level. -/

namespace StarOs.Paging

open Library

/-- What a leaf holds; an absent entry holds nothing. -/
def Blank (leaf : UInt64 → List UInt64) : Prop := ∀ e, present e = false → leaf e = []

section

variable {σ : Type} (F : FrameSource σ) (held : σ → Set UInt64) (whole : Bool)
  (last : UInt64 → Prop)

/-- The part of a tree below an entry: its tables are distinct and handed out, its pointing
entries restrict nothing, and its leaves are as they should be. -/
structure TreeOk (s : σ) (l : ℕ) (e : UInt64) : Prop where
  nodup : ((tree whole).tables (F.read s) l e).Nodup
  owned : ∀ t ∈ (tree whole).tables (F.read s) l e, t ∈ held s
  holds : (tree whole).Holds Link last (F.read s) l e

/-- The calls to the source on the way from one state to another, and the frames they gave;
a store goes to a frame that was handed out. -/
inductive Calls : σ → σ → List UInt64 → Prop where
  | refl (s : σ) : Calls s s []
  | alloc {s s₁ s' : σ} {p : UInt64} {made : List UInt64} (h : Calls s s₁ made)
      (ha : F.allocTable s₁ = (some p, s')) : Calls s s' (p :: made)
  | exhausted {s s₁ s' : σ} {made : List UInt64} (h : Calls s s₁ made)
      (ha : F.allocTable s₁ = (none, s')) : Calls s s' made
  | write {s s₁ : σ} {made : List UInt64} {t e : UInt64} {i : ℕ} (h : Calls s s₁ made)
      (ht : t ∈ held s₁) (hi : i < 512) : Calls s (F.write s₁ t i e) made

/-- The tables `made` join those handed out. -/
structure Grown (s s' : σ) (made : List UInt64) : Prop where
  calls : Calls F held s s' made
  owned : ∀ q, q ∈ held s' ↔ q ∈ made ∨ q ∈ held s
  nodup : made.Nodup
  fresh : ∀ q ∈ made, q ∉ held s

/-- The walk passed through entry `i` of table `t`, which points to `u` now. -/
structure Opened (s s' : σ) (t : UInt64) (i l : ℕ) (r : Rights) (u : UInt64)
    (made : List UInt64) : Prop where
  grown : Grown F held s s' made
  frame : ∀ q ∈ held s, ∀ k < 512, ¬(q = t ∧ k = i) → F.read s' q k = F.read s q k
  child : (tree whole).child (F.read s' t i) = some u
  widened : present (F.read s t i) → F.read s' t i = F.read s t i ||| intermediateBits r
  holds : (tree whole).Holds Link last (F.read s') (l + 1) (F.read s' t i)
  rights : ∃ user, Rights.fromBits (F.read s' t i) = ⟨true, true, user⟩ ∧ (r.user → user) ∧
    (user → present (F.read s t i) ∧ (Rights.fromBits (F.read s t i)).user ∨ r.user)
  cells : ∀ leaf, Blank leaf → ((tree whole).cells leaf (F.read s') (l + 1) (F.read s' t i)).Perm
    (made ++ (tree whole).cells leaf (F.read s) (l + 1) (F.read s t i))
  leaf : ∀ v, whole ∨ index v 3 < 256 → leafAt whole (F.read s') (l + 1) (F.read s' t i) v =
    leafAt whole (F.read s) (l + 1) (F.read s t i) v

/-- In table `t` only entry `i` changed: if it was there it was widened at most, and if it was
not it points to a table now. -/
structure OneEntry (s s' : σ) (t : UInt64) (i : ℕ) (r : Rights) : Prop where
  beside : ∀ k < 512, k ≠ i → F.read s' t k = F.read s t k
  widened : present (F.read s t i) → F.read s' t i = F.read s t i ∨
    F.read s' t i = F.read s t i ||| intermediateBits r
  pointer : present (F.read s t i) = false → F.read s' t i = F.read s t i ∨
    huge (F.read s' t i) = false

/-- The addresses the leaf at `level` for `virt` covers, as far as levels below `l` go. -/
def SamePage (virt : UInt64) (level l : ℕ) (v : UInt64) : Prop :=
  ∀ k, level ≤ k → k < l → index v k = index virt k

/-- Why a walk below entry `e` to the leaf at `level` for `virt` gives up: it got no table, or a
larger page is in the way. -/
def Failed (s : σ) (l : ℕ) (e virt : UInt64) (level : ℕ) : MapError → Prop
  | .misaligned => False
  | .outOfFrames => True
  | .largePageCollision => ∃ p, leafAt whole (F.read s) l e virt = some p ∧ level < p.1

/-- What a walk that ended so put in place. -/
def placed (res : Except MapError Unit) (bits : UInt64) : Option UInt64 :=
  match res with
  | .ok () => some bits
  | .error _ => none

/-- Below entry `e`, which is `e'` now, the leaf `put` for `virt` is in place at `level`, if
there is one, and nothing else changed but the tables made on the way. The entry itself may be
one of the words in `slot`. -/
structure Change (s s' : σ) (slot : UInt64 → ℕ → Prop) (l : ℕ) (e e' virt : UInt64) (level : ℕ)
    (put : Option UInt64) (made : List UInt64) : Prop where
  grown : Grown F held s s' made
  frame : ∀ q ∈ held s, ∀ k < 512, q ∉ (tree whole).tables (F.read s) l e → ¬slot q k →
    F.read s' q k = F.read s q k
  holds : (tree whole).Holds Link last (F.read s') l e'
  cells : ∀ leaf, Blank leaf → ∃ lost, ((tree whole).cells leaf (F.read s') l e' ++ lost).Perm
    (made ++ put.elim [] leaf ++ (tree whole).cells leaf (F.read s) l e) ∧
      (level = 0 → lost = put.elim [] fun _ =>
        (leafAt whole (F.read s) l e virt).elim [] fun p => leaf p.2)
  hit : ∀ bits, put = some bits → ∀ v, whole ∨ index v 3 < 256 → SamePage virt level l v →
    leafAt whole (F.read s') l e' v = if present bits then some (level, bits) else none
  miss : ∀ v, whole ∨ index v 3 < 256 → put = none ∨ ¬SamePage virt level l v →
    leafAt whole (F.read s') l e' v = leafAt whole (F.read s) l e v

end

section

variable {σ : Type} {F : FrameSource σ} {held : σ → Set UInt64} {whole : Bool}
  {last : UInt64 → Prop} {s s' s₁ : σ} {l i level : ℕ} {e e' t u virt bits : UInt64} {r : Rights}
  {made new : List UInt64} {put : Option UInt64} {slot : UInt64 → ℕ → Prop}

theorem blank_nil : Blank fun _ => [] := fun _ _ => rfl

theorem Calls.trans (h : Calls F held s s₁ made) (h' : Calls F held s₁ s' new) :
    Calls F held s s' (new ++ made) := by
  induction h' with
  | refl => exact h
  | alloc _ ha ih => exact ih.alloc ha
  | exhausted _ ha ih => exact ih.exhausted ha
  | write _ ht hi ih => exact ih.write ht hi

/-- Nothing was given out. -/
theorem Grown.same (hc : Calls F held s s' []) (h : held s' = held s) : Grown F held s s' [] :=
  ⟨hc, by simp [h], List.nodup_nil, by simp⟩

theorem Grown.trans (h : Grown F held s s₁ made) (h' : Grown F held s₁ s' new) :
    Grown F held s s' (new ++ made) where
  calls := h.calls.trans h'.calls
  owned q := by rw [h'.owned, h.owned, List.mem_append, or_assoc]
  nodup := List.nodup_append.mpr ⟨h'.nodup, h.nodup, fun q hq q' hq' heq =>
    h'.fresh q hq ((h.owned q).mpr (.inl (heq ▸ hq')))⟩
  fresh q hq hold := by
    rcases List.mem_append.mp hq with hq | hq
    · exact h'.fresh q hq ((h.owned q).mpr (.inr hold))
    · exact h.fresh q hq hold

/-- The tables below a changed entry are its tables before and those made. -/
theorem Change.tables (h : Change F held whole last s s' slot l e e' virt level put made) :
    ∃ lost, ((tree whole).tables (F.read s') l e' ++ lost).Perm
      (made ++ (tree whole).tables (F.read s) l e) := by
  obtain ⟨lost, hperm, -⟩ := h.cells _ blank_nil
  have hnil : put.elim [] (fun _ => []) = ([] : List UInt64) := by cases put <;> rfl
  exact ⟨lost, by simpa [TableTree.tables, hnil] using hperm⟩

theorem TreeOk.change (hok : TreeOk F held whole last s l e)
    (h : Change F held whole last s s' slot l e e' virt level put made) :
    TreeOk F held whole last s' l e' := by
  obtain ⟨lost, hperm⟩ := h.tables
  refine ⟨?_, ?_, h.holds⟩
  · have hnd : (made ++ (tree whole).tables (F.read s) l e).Nodup :=
      List.nodup_append.mpr ⟨h.grown.nodup, hok.nodup, fun q hq q' hq' heq =>
        h.grown.fresh q hq (hok.owned q (heq ▸ hq'))⟩
    exact (List.nodup_append.mp (hperm.nodup_iff.mpr hnd)).1
  · intro q hq
    have hmem := hperm.mem_iff.mp (List.mem_append_left lost hq)
    rcases List.mem_append.mp hmem with hmem | hmem
    · exact (h.grown.owned q).mpr (.inl hmem)
    · exact (h.grown.owned q).mpr (.inr (hok.owned q hmem))

/-- A walk that gave up changed nothing. -/
theorem kept_change (hok : TreeOk F held whole last s l e) (hc : Calls F held s s' [])
    (hheld : held s' = held s) (hread : ∀ q ∈ held s, ∀ k < 512, F.read s' q k = F.read s q k) :
    Change F held whole last s s' slot l e e virt level none [] := by
  have hagree : (tree whole).AgreeOn (F.read s) (F.read s') ((tree whole).tables (F.read s) l e) :=
    fun q hq => hread q (hok.owned q hq)
  constructor
  · exact Grown.same hc hheld
  · exact fun q hq k hk _ _ => hread q hq k hk
  · exact (TableTree.holds_congr hagree).mpr hok.holds
  · intro leaf _
    refine ⟨[], ?_, fun _ => rfl⟩
    rw [TableTree.cells_congr hagree, List.append_nil]
    exact List.Perm.refl _
  · exact fun bits h => nomatch h
  · intro v hv _
    simp only [leafAt]
    rw [TableTree.walk_congr (index_lt_fanout hv) hagree]

/-- Storing the leaf. -/
theorem write_change (whole : Bool) (virt : UInt64) (hL : F.Lawful held) (ht : t ∈ held s)
    (hi : i < 512) (hbits : 0 < level → (tree whole).child bits = none) (hlast : last bits) :
    Change F held whole last s (F.write s t i bits) (fun q k => q = t ∧ k = i) level
      (F.read s t i) (F.read (F.write s t i bits) t i) virt level (some bits) [] := by
  obtain ⟨howned, hread⟩ := hL.write s t i bits ht hi
  rw [hread t ht i hi, if_pos ⟨rfl, rfl⟩]
  have hcells : ∀ leaf : UInt64 → List UInt64, (tree whole).cells leaf (F.read (F.write s t i bits))
      level bits = leaf bits := by
    intro leaf
    cases level with
    | zero => rfl
    | succ level => exact TableTree.cells_of_none (hbits (by omega))
  constructor
  · exact Grown.same ((Calls.refl s).write ht hi) howned
  · intro q hq k hk _ hslot
    rw [hread q hq k hk, if_neg hslot]
  · cases level with
    | zero => exact hlast
    | succ level => exact (TableTree.holds_of_none (hbits (by omega))).mpr hlast
  · intro leaf hleaf
    refine ⟨(tree whole).cells leaf (F.read s) level (F.read s t i), ?_, ?_⟩
    · rw [hcells, List.nil_append, Option.elim_some]
    · rintro rfl
      rw [leafAt_zero, TableTree.cells]
      split
      · rfl
      · next hp => exact hleaf _ (by simpa using hp)
  · intro bits' hput v _ _
    obtain rfl := Option.some.inj hput
    cases level with
    | zero => exact leafAt_zero
    | succ level => exact leafAt_of_none (hbits (by omega))
  · intro v _ hmiss
    exact absurd (fun k hk hk' => absurd hk' (by omega)) (hmiss.resolve_left (Option.some_ne_none _))

/-- A change below the entry the walk goes through is a change of the tree it is in. -/
theorem Change.graft (h : Change F held whole last s s' (fun q k => q = t ∧ k = index virt l) l
      (F.read s t (index virt l)) (F.read s' t (index virt l)) virt level put made)
    (hv : whole ∨ index virt 3 < 256) (hlevel : level ≤ l)
    (hok : TreeOk F held whole last s (l + 1) e) (ht : (tree whole).child e = some t)
    (hlink : Link e (F.read s' t (index virt l))) :
    Change F held whole last s s' (fun _ _ => False) (l + 1) e e virt level put made := by
  have hi : index virt l < (tree whole).fanout l := index_lt_fanout hv l
  have hkeep : ∀ u ∈ (tree whole).tables (F.read s) (l + 1) e, ∀ k < (tree whole).width,
      u ∉ (tree whole).tables (F.read s) l (F.read s t (index virt l)) →
      ¬(u = t ∧ k = index virt l) → F.read s' u k = F.read s u k :=
    fun u hu k hk => h.frame u (hok.owned u hu) k hk
  constructor
  · exact h.grown
  · intro q hq k hk hmem _
    have hout := mt (TableTree.mem_tables_of_some ht).mpr hmem
    push Not at hout
    exact h.frame q hq k hk (hout.2 _ hi) fun hslot => hout.1 hslot.1
  · exact TableTree.holds_graft hok.nodup ht hi hok.holds hkeep hlink h.holds
  · intro leaf hleaf
    obtain ⟨lost, hperm, hlost⟩ := h.cells leaf hleaf
    exact ⟨lost, TableTree.cells_graft hok.nodup ht hi ht hkeep hperm, fun h0 => by
      rw [hlost h0, leafAt_of_some ht]⟩
  · intro bits hput v hv' hsame
    have hidx := hsame l hlevel (by omega)
    rw [leafAt_of_some ht, hidx]
    exact h.hit bits hput v hv' fun k hk hk' => hsame k hk (by omega)
  · intro v hv' hdiff
    by_cases hidx : index v l = index virt l
    · rw [leafAt_of_some ht, leafAt_of_some ht, hidx]
      refine h.miss v hv' (hdiff.imp_right fun hdiff hsame => hdiff fun k hk hk' => ?_)
      obtain hlt | rfl := Nat.lt_succ_iff_lt_or_eq.mp hk'
      · exact hsame k hk hlt
      · exact hidx
    · simp only [leafAt]
      rw [TableTree.walk_graft hok.nodup ht hi (index_lt_fanout hv') hidx hkeep]

/-- The walk through an entry that points to a table. -/
theorem open_present (hL : F.Lawful held) (ht : t ∈ held s) (hi : i < 512)
    (hok : TreeOk F held whole last s (l + 1) (F.read s t i))
    (htn : t ∉ (tree whole).tables (F.read s) (l + 1) (F.read s t i))
    (hu : (tree whole).child (F.read s t i) = some u)
    (hs : s' = if (F.read s t i ||| intermediateBits r) != F.read s t i then
      F.write s t i (F.read s t i ||| intermediateBits r) else s) :
    Opened F held whole last s s' t i l r u [] := by
  set x := F.read s t i with hx
  obtain ⟨hpresent, hhuge, haddr⟩ := child_eq_some.mp hu
  have hs' : held s' = held s ∧ ∀ q ∈ held s, ∀ k < 512,
      F.read s' q k = if q = t ∧ k = i then x ||| intermediateBits r else F.read s q k := by
    rw [hs]
    split
    · exact hL.write s t i _ ht hi
    · next heq =>
      refine ⟨rfl, fun q _ k _ => ?_⟩
      split
      · next hslot => rw [hslot.1, hslot.2, show x ||| intermediateBits r = x by simpa using heq]
      · rfl
  obtain ⟨howned, hread⟩ := hs'
  have hentry : F.read s' t i = x ||| intermediateBits r := by rw [hread t ht i hi, if_pos ⟨rfl, rfl⟩]
  obtain ⟨hpresent', hhuge', haddr', hrights⟩ := @widened_entry x r
  have hchild : (tree whole).child (x ||| intermediateBits r) = some u :=
    child_eq_some.mpr ⟨hpresent', hhuge'.trans hhuge, haddr'.trans haddr⟩
  have hagree : (tree whole).AgreeOn (F.read s) (F.read s') ((tree whole).tables (F.read s) (l + 1) x) := by
    intro q hq k hk
    rw [hread q (hok.owned q hq) k hk, if_neg]
    rintro ⟨rfl, -⟩
    exact htn hq
  have hrest := (TableTree.holds_of_some hu).mp hok.holds
  have hfan : 0 < (tree whole).fanout l := by simp only [tree]; split <;> omega
  have hexec : (Rights.fromBits x).exec = true := (hrest 0 hfan).1.2.1
  constructor
  · refine Grown.same ?_ howned
    rw [hs]
    split
    · exact (Calls.refl s).write ht hi
    · exact .refl s
  · intro q hq k hk hslot
    rw [hread q hq k hk, if_neg hslot]
  · rw [hentry]
    exact hchild
  · exact fun _ => hentry
  · rw [hentry, TableTree.holds_of_some hchild]
    have hnew := (TableTree.holds_of_some hu).mp ((TableTree.holds_congr hagree).mpr hok.holds)
    intro k hk
    obtain ⟨⟨-, -, huser⟩, hbelow⟩ := hnew k hk
    refine ⟨?_, hbelow⟩
    rw [Link, hrights]
    exact ⟨rfl, hexec, fun hp hus => by simp [huser hp hus]⟩
  · refine ⟨_, by rw [hentry, hrights, hexec], ?_, ?_⟩
    · intro hr
      simp [hr]
    · intro hor
      exact (Bool.or_eq_true _ _).mp hor |>.imp_left fun hux => ⟨hpresent, hux⟩
  · intro leaf _
    rw [hentry, List.nil_append, TableTree.cells_of_some hchild, ← TableTree.cells_of_some hu,
      TableTree.cells_congr hagree]
  · intro v hv
    rw [hentry, leafAt_of_some hchild, ← leafAt_of_some hu]
    simp only [leafAt]
    rw [TableTree.walk_congr (index_lt_fanout hv) hagree]

/-- The walk through an absent entry makes a table. -/
theorem open_absent (hL : F.Lawful held) (hzero : last 0) (ht : t ∈ held s) (hi : i < 512)
    (hx : present (F.read s t i) = false) (ha : F.allocTable s = (some u, s₁))
    (hs : s' = F.write s₁ t i (u ||| intermediateBits r)) :
    Opened F held whole last s s' t i l r u [u] := by
  obtain ⟨halign, hbound, hnew, hheld₁, hblank, hkeep⟩ := hL.alloc s u s₁ ha
  have ht₁ : t ∈ held s₁ := hheld₁ ▸ Set.mem_insert_of_mem u ht
  obtain ⟨hheld, hread⟩ := hL.write s₁ t i (u ||| intermediateBits r) ht₁ hi
  rw [← hs] at hheld hread
  have hframed : Framed u := framed_iff.mpr ⟨halign, hbound⟩
  obtain ⟨hpresent, hhuge, haddr, hrights⟩ := intermediate_entry (r := r) hframed
  have hentry : F.read s' t i = u ||| intermediateBits r := by rw [hread t ht₁ i hi, if_pos ⟨rfl, rfl⟩]
  have hchild : (tree whole).child (u ||| intermediateBits r) = some u :=
    child_eq_some.mpr ⟨hpresent, hhuge, haddr⟩
  have hempty : ∀ k < 512, F.read s' u k = 0 := by
    intro k hk
    rw [hread u (hheld₁ ▸ Set.mem_insert u _) k hk, if_neg, hblank k hk]
    rintro ⟨rfl, -⟩
    exact hnew ht
  have hfan : ∀ k < (tree whole).fanout l, k < 512 := fun k hk =>
    hk.trans_le ((tree whole).fanout_le l)
  constructor
  · refine ⟨hs ▸ ((Calls.refl s).alloc ha).write ht₁ hi, fun q => ?_, List.nodup_singleton u,
      by simpa using hnew⟩
    rw [hheld, hheld₁, Set.mem_insert_iff, List.mem_singleton]
  · intro q hq k hk hslot
    rw [hread q (hheld₁ ▸ Set.mem_insert_of_mem u hq) k hk, if_neg hslot, hkeep q hq k hk]
  · rw [hentry]
    exact hchild
  · exact fun hp => absurd hp (by simp [hx])
  · rw [hentry, TableTree.holds_of_some hchild]
    intro k hk
    rw [hempty k (hfan k hk), TableTree.holds_of_none child_zero, Link, hrights]
    exact ⟨⟨rfl, rfl, fun hp => absurd hp (by decide)⟩, hzero⟩
  · exact ⟨r.user, by rw [hentry, hrights], id, .inr⟩
  · intro leaf hleaf
    have hnone : ∀ k ∈ List.range ((tree whole).fanout l),
        (tree whole).cells leaf (F.read s') l (F.read s' u k) = [] := by
      intro k hk
      rw [hempty k (hfan k (List.mem_range.mp hk)), TableTree.cells_of_none child_zero]
      exact hleaf 0 (by decide)
    rw [hentry, TableTree.cells_of_some hchild, List.flatMap_eq_nil_iff.mpr hnone,
      TableTree.cells_of_none (child_of_not_present hx), hleaf _ hx]
    exact List.Perm.refl _
  · intro v _
    rw [hentry, leafAt_of_some hchild, hempty _ (index_lt v l), leafAt_of_none child_zero,
      leafAt_of_none (child_of_not_present hx), hx]
    rfl

/-- What is left of a step down that failed, and why it did. -/
theorem nextTable_error (whole : Bool) (virt : UInt64) (l : ℕ) (hL : F.Lawful held)
    {err : MapError}
    (h : nextTable F t i r s = (.error err, s')) : (Calls F held s s' [] ∧ held s' = held s ∧
      ∀ q ∈ held s, ∀ k < 512, F.read s' q k = F.read s q k) ∧
      ∀ level ≤ l, Failed F whole s (l + 1) (F.read s t i) virt level err := by
  unfold nextTable at h
  dsimp only at h
  split at h
  · next hpresent =>
    split at h
    · next hhuge =>
      obtain ⟨herr, rfl⟩ := Prod.ext_iff.mp h
      obtain rfl := Except.error.inj herr
      refine ⟨⟨.refl s, rfl, fun _ _ _ _ => rfl⟩, fun level hl => ⟨(l + 1, F.read s t i), ?_, ?_⟩⟩
      · rw [leafAt_of_none (child_of_huge hhuge), if_pos hpresent]
      · exact Nat.lt_succ_of_le hl
    · cases h
  · split at h
    · next s₁ ha =>
      obtain ⟨herr, hs⟩ := Prod.ext_iff.mp h
      obtain rfl := Except.error.inj herr
      obtain rfl : s₁ = s' := hs
      exact ⟨⟨(Calls.refl s).exhausted ha, hL.exhausted s s₁ ha⟩, fun level _ => trivial⟩
    · cases h

theorem nextTable_ok (hL : F.Lawful held) (hzero : last 0) (ht : t ∈ held s) (hi : i < 512)
    (hok : TreeOk F held whole last s (l + 1) (F.read s t i))
    (htn : t ∉ (tree whole).tables (F.read s) (l + 1) (F.read s t i))
    (h : nextTable F t i r s = (.ok u, s')) :
    ∃ made, Opened F held whole last s s' t i l r u made := by
  unfold nextTable at h
  dsimp only at h
  split at h
  · next hpresent =>
    split at h
    · cases h
    · next hhuge =>
      obtain ⟨hu, hs⟩ := Prod.ext_iff.mp h
      have hchild := child_of_pointer whole hpresent (by simpa using hhuge)
      rw [Except.ok.inj hu] at hchild
      exact ⟨[], open_present hL ht hi hok htn hchild hs.symm⟩
  · next habsent =>
    split at h
    · cases h
    · next page s₁ ha =>
      obtain ⟨hu, hs⟩ := Prod.ext_iff.mp h
      obtain rfl := Except.ok.inj hu
      exact ⟨[page], open_absent hL hzero ht hi (by simpa using habsent) ha hs.symm⟩

theorem Opened.mem_tables (h : Opened F held whole last s s₁ t i l r u made) {q : UInt64} :
    q ∈ (tree whole).tables (F.read s₁) (l + 1) (F.read s₁ t i) ↔
      q ∈ made ∨ q ∈ (tree whole).tables (F.read s) (l + 1) (F.read s t i) := by
  rw [← List.mem_append]
  exact (h.cells _ blank_nil).mem_iff

theorem Opened.treeOk (h : Opened F held whole last s s₁ t i l r u made)
    (hok : TreeOk F held whole last s (l + 1) (F.read s t i)) :
    TreeOk F held whole last s₁ (l + 1) (F.read s₁ t i) := by
  refine ⟨?_, fun q hq => ?_, h.holds⟩
  · refine (h.cells _ blank_nil).nodup_iff.mpr (List.nodup_append.mpr ⟨h.grown.nodup, hok.nodup, ?_⟩)
    exact fun q hq q' hq' heq => h.grown.fresh q hq (hok.owned q (heq ▸ hq'))
  · exact (h.grown.owned q).mpr ((h.mem_tables.mp hq).imp_right (hok.owned q))

/-- A change after the walk passed an entry is a change of that entry too. -/
theorem Opened.change (h : Opened F held whole last s s₁ t i l r u made)
    (h' : Change F held whole last s₁ s' (fun _ _ => False) (l + 1) (F.read s₁ t i) (F.read s₁ t i)
      virt level put new) (hv : whole ∨ index virt 3 < 256)
    (hentry : F.read s' t i = F.read s₁ t i) :
    Change F held whole last s s' (fun q k => q = t ∧ k = i) (l + 1) (F.read s t i)
      (F.read s' t i) virt level put (new ++ made) := by
  rw [hentry]
  constructor
  · exact h.grown.trans h'.grown
  · intro q hq k hk hmem hslot
    rw [h'.frame q ((h.grown.owned q).mpr (.inr hq)) k hk _ not_false, h.frame q hq k hk hslot]
    rw [h.mem_tables]
    exact fun hor => hor.elim (fun hq' => h.grown.fresh q hq' hq) hmem
  · exact h'.holds
  · intro leaf hleaf
    obtain ⟨lost, hperm, hlost⟩ := h'.cells leaf hleaf
    refine ⟨lost, ?_, fun h0 => by rw [hlost h0, h.leaf virt hv]⟩
    calc (tree whole).cells leaf (F.read s') (l + 1) (F.read s₁ t i) ++ lost
        |>.Perm _ := hperm
      _ |>.Perm _ := (h.cells leaf hleaf).append_left (new ++ put.elim [] leaf)
      _ |>.Perm _ := by
        simp only [List.append_assoc]
        refine List.Perm.append_left new ?_
        rw [← List.append_assoc, ← List.append_assoc]
        exact List.perm_append_comm.append_right _
  · exact h'.hit
  · intro v hv' hdiff
    rw [h'.miss v hv' hdiff, h.leaf v hv']

theorem TreeOk.below (hok : TreeOk F held whole last s (l + 1) e) (ht : (tree whole).child e = some t)
    (hi : i < (tree whole).fanout l) : TreeOk F held whole last s l (F.read s t i) where
  nodup := TableTree.nodup_below hok.nodup ht hi
  owned q hq := hok.owned q ((TableTree.mem_tables_of_some ht).mpr (.inr ⟨i, hi, hq⟩))
  holds := ((TableTree.holds_of_some ht).mp hok.holds i hi).2

theorem TreeOk.root_held (hok : TreeOk F held whole last s (l + 1) e)
    (ht : (tree whole).child e = some t) : t ∈ held s :=
  hok.owned t ((TableTree.mem_tables_of_some ht).mpr (.inl rfl))

/-- What stops the walk below an entry of a table stops it below the table. -/
theorem Failed.above {err : MapError}
    (h : Failed F whole s l (F.read s t (index virt l)) virt level err)
    (ht : (tree whole).child e = some t) : Failed F whole s (l + 1) e virt level err := by
  cases err with
  | misaligned => exact h
  | outOfFrames => exact h
  | largePageCollision =>
    obtain ⟨p, hp, hlevel⟩ := h
    exact ⟨p, by rw [leafAt_of_some ht, hp], hlevel⟩

/-- What stops the walk after it passed an entry stops it before. -/
theorem Failed.before {err : MapError}
    (h : Failed F whole s₁ (l + 1) (F.read s₁ t i) virt level err)
    (hopen : Opened F held whole last s s₁ t i l r u made) (hv : whole ∨ index virt 3 < 256) :
    Failed F whole s (l + 1) (F.read s t i) virt level err := by
  cases err with
  | misaligned => exact h
  | outOfFrames => exact h
  | largePageCollision =>
    obtain ⟨p, hp, hlevel⟩ := h
    exact ⟨p, by rw [← hopen.leaf virt hv, hp], hlevel⟩

/-- The loop of `map_leaf` from a table of the tree, `n` levels above the leaf's, however it
ends. -/
theorem mapLeafFrom_spec (hL : F.Lawful held) (hzero : last 0) (hv : whole ∨ index virt 3 < 256)
    (hbits : 0 < level → (tree whole).child bits = none) (hlast : last bits)
    (huser : (Rights.fromBits bits).user → r.user) {n : ℕ} {res : Except MapError Unit}
    (hok : TreeOk F held whole last s (level + n + 1) e) (ht : (tree whole).child e = some t)
    (hwrite : (Rights.fromBits e).write) (hexec : (Rights.fromBits e).exec)
    (heuser : r.user → (Rights.fromBits e).user)
    (h : mapLeafFrom F virt r level bits n t s = (res, s')) :
    ∃ made, Change F held whole last s s' (fun _ _ => False) (level + n + 1) e e virt level
      (placed res bits) made ∧ (0 < n → OneEntry F s s' t (index virt (level + n)) r) ∧
      ∀ err, res = .error err → Failed F whole s (level + n + 1) e virt level err := by
  induction n generalizing s t e with
  | zero =>
    have hheld := hok.root_held ht
    obtain ⟨rfl, rfl⟩ := Prod.ext_iff.mp h
    have hchange := write_change whole virt hL hheld (index_lt virt level) hbits hlast
    have hentry : F.read (F.write s t (index virt level) bits) t (index virt level) = bits := by
      rw [(hL.write s t _ bits hheld (index_lt virt level)).2 t hheld _ (index_lt virt level),
        if_pos ⟨rfl, rfl⟩]
    refine ⟨[], hchange.graft hv le_rfl hok ht ?_, by omega, fun err herr => nomatch herr⟩
    rw [hentry]
    exact ⟨hwrite, hexec, fun _ hu => heuser (huser hu)⟩
  | succ n ih =>
    have hi := index_lt_fanout hv (level + n + 1)
    have hheld := hok.root_held ht
    rw [mapLeafFrom] at h
    split at h
    · next err s₁ hnext =>
      obtain ⟨rfl, rfl⟩ := Prod.ext_iff.mp h
      obtain ⟨⟨hcalls, howned, hread⟩, hfail⟩ := nextTable_error whole virt (level + n) hL hnext
      refine ⟨[], kept_change hok hcalls howned hread, fun _ => ⟨fun k hk _ => ?_, ?_, ?_⟩,
        fun err' herr => ?_⟩
      · exact hread t hheld k hk
      · exact fun _ => .inl (hread t hheld _ (index_lt _ _))
      · exact fun _ => .inl (hread t hheld _ (index_lt _ _))
      · obtain rfl := Except.error.inj herr
        exact (hfail level (by omega)).above ht
    · next u s₁ hnext =>
      set x := F.read s t (index virt (level + n + 1)) with hx
      have htn : t ∉ (tree whole).tables (F.read s) (level + n + 1) x :=
        TableTree.not_mem_below hok.nodup ht hi
      have hlink := ((TableTree.holds_of_some ht).mp hok.holds _ hi).1
      have hokx := hok.below ht hi
      obtain ⟨made, hopen⟩ := nextTable_ok hL hzero hheld (index_lt _ _) hokx htn hnext
      obtain ⟨user, hrights, hgrant, hfrom⟩ := hopen.rights
      obtain ⟨new, hchange, -, hfail⟩ := ih (hopen.treeOk hokx) hopen.child (by rw [hrights])
        (by rw [hrights]) (by rw [hrights]; exact hgrant) h
      -- the loop goes on below the entry, and does not come back to it
      have hentry : F.read s' t (index virt (level + n + 1)) =
          F.read s₁ t (index virt (level + n + 1)) := by
        refine hchange.frame t ((hopen.grown.owned t).mpr (.inr hheld)) _ (index_lt _ _) ?_ not_false
        intro hmem
        exact (hopen.mem_tables.mp hmem).elim (fun hmade => hopen.grown.fresh t hmade hheld) htn
      have hslot := hopen.change hchange hv hentry
      refine ⟨new ++ made, hslot.graft hv (by omega) hok ht ?_,
        fun _ => ⟨fun k hk hne => ?_, ?_, ?_⟩, fun err herr => ?_⟩
      · rw [hentry, Link, hrights]
        refine ⟨hwrite, hexec, fun _ hu => ?_⟩
        obtain ⟨hp, hux⟩ | hr := hfrom hu
        · exact hlink.2.2 hp hux
        · exact heuser hr
      · exact hslot.frame t hheld k hk htn fun heq => hne heq.2
      · exact fun hp => .inr (hentry.trans (hopen.widened hp))
      · exact fun _ => .inr (hentry ▸ (child_eq_some.mp hopen.child).2.1)
      · exact ((hfail err herr).before hopen hv).above ht

/-- The walk to a leaf stops at a larger page on its way. -/
theorem mapLeafFrom_collides (hL : F.Lawful held) (hzero : last 0) {n : ℕ} {p : ℕ × UInt64}
    (hok : TreeOk F held true last s (level + n + 1) e) (ht : (tree true).child e = some t)
    (hleaf : leafAt true (F.read s) (level + n + 1) e virt = some p) (hlt : level < p.1) :
    (mapLeafFrom F virt r level bits n t s).1 = .error .largePageCollision := by
  induction n generalizing s t e with
  | zero =>
    rw [Nat.add_zero, leafAt_of_some ht] at hleaf
    have := level_le_of_leafAt hleaf
    omega
  | succ n ih =>
    rw [leafAt_of_some ht] at hleaf
    have hi : index virt (level + n + 1) < (tree true).fanout (level + n + 1) :=
      index_lt_fanout (.inl rfl) _
    rw [mapLeafFrom]
    cases hc : (tree true).child (F.read s t (index virt (level + n + 1))) with
    | none =>
      -- a present entry without a table is the page in the way
      have hp : present (F.read s t (index virt (level + n + 1))) := by
        rw [← Nat.add_assoc, leafAt_of_none hc] at hleaf
        by_contra hnot
        rw [if_neg hnot] at hleaf
        cases hleaf
      have hh : huge (F.read s t (index virt (level + n + 1))) := by
        by_contra hnot
        rw [child_of_pointer true hp (by simpa using hnot)] at hc
        cases hc
      simp only [nextTable, hp, hh, if_true]
    | some u =>
      obtain ⟨hp, hh, -⟩ := child_eq_some.mp hc
      have hokx := hok.below ht hi
      have htn := TableTree.not_mem_below hok.nodup ht hi
      cases hnext : nextTable F t (index virt (level + n + 1)) r s with
      | mk out s₁ =>
        cases out with
        | error err => simp [nextTable, hp, hh] at hnext
        | ok u' =>
          obtain ⟨made, hopen⟩ := nextTable_ok hL hzero (hok.root_held ht) (index_lt _ _) hokx htn
            hnext
          exact ih (hopen.treeOk hokx) hopen.child ((hopen.leaf virt (.inl rfl)).trans hleaf)

end

end StarOs.Paging
