import StarOs.Kernel.SpaceOps

/-! Tearing a space down. The walk of `free_level` meets every table and every data frame of the
lower half once, steps over the clock's, and frees a table only when what is below it is freed. -/

namespace StarOs.Kernel

open Library Library.Loop Paging

/-- The frames `freed` were given back on the way, the latest first. -/
structure Freed {σ : Type} (P : FramePool σ) (held : σ → Set UInt64) (m m' : Mem σ)
    (freed : List UInt64) : Prop where
  events : m'.events = freed.map FrameEvent.freed ++ m.events
  inUse : m'.inUse = m.inUse - UInt64.ofNat freed.length
  outstanding : ∀ q, q ∈ held m'.pool ↔ q ∈ held m.pool ∧ q ∉ freed
  kept : ∀ t ∈ held m.pool, t ∉ freed → ∀ i < 512, m'.read P t i = m.read P t i
  nodup : freed.Nodup
  owned : ∀ q ∈ freed, q ∈ held m.pool

/-- The part of a space below an entry, ready to be freed. -/
structure Ripe {σ : Type} (P : FramePool σ) (held : σ → Set UInt64) (clock : UInt64)
    (borrowed : Option UInt64) (l : ℕ) (e : UInt64) (m : Mem σ) : Prop where
  holds : (tree false).Holds Link (UserLeaf clock borrowed) (m.read P) l e
  nodup : ((tree false).cells (ownLeaf clock) (m.read P) l e).Nodup
  owned : ∀ q ∈ (tree false).cells (ownLeaf clock) (m.read P) l e, q ∈ held m.pool

section

variable {σ : Type} {P : FramePool σ} {held : σ → Set UInt64} {clock frame : UInt64}
  {borrowed : Option UInt64} {a : AddressSpace} {m m' m₁ s : Mem σ} {freed more : List UInt64}
  {l i : ℕ} {e t u : UInt64}

theorem Freed.refl (m : Mem σ) : Freed P held m m [] := by
  refine ⟨rfl, ?_, by simp, fun _ _ _ _ _ => rfl, List.nodup_nil, by simp⟩
  exact (UInt64.sub_zero _).symm

theorem Freed.trans (h : Freed P held m m₁ freed) (h' : Freed P held m₁ m' more) :
    Freed P held m m' (more ++ freed) where
  events := by rw [h'.events, h.events, List.map_append, List.append_assoc]
  inUse := by
    rw [h'.inUse, h.inUse, List.length_append, UInt64.ofNat_add, UInt64.add_comm,
      ← UInt64.toBitVec_inj]
    simp only [UInt64.toBitVec_sub, UInt64.toBitVec_add]
    bv_omega
  outstanding q := by
    rw [h'.outstanding, h.outstanding, List.mem_append, not_or]
    tauto
  kept t ht hnot i hi := by
    rw [List.mem_append, not_or] at hnot
    exact (h'.kept t ((h.outstanding t).mpr ⟨ht, hnot.2⟩) hnot.1 i hi).trans
      (h.kept t ht hnot.2 i hi)
  nodup := List.nodup_append.mpr ⟨h'.nodup, h.nodup, fun q hq q' hq' heq =>
    ((h.outstanding q).mp (h'.owned q hq)).2 (heq ▸ hq')⟩
  owned q hq := (List.mem_append.mp hq).elim
    (fun hq => ((h.outstanding q).mp (h'.owned q hq)).1) (h.owned q)

theorem freeFrame_freed (hP : P.Lawful held) (hmem : frame ∈ held m.pool) :
    Freed P held m (freeFrame P frame m) [frame] := by
  obtain ⟨hheld, hread⟩ := freeFrame_spec hP hmem
  refine ⟨rfl, rfl, fun q => ?_, fun t ht hnot => hread t ht (by simpa using hnot),
    List.nodup_singleton frame, by simpa using hmem⟩
  rw [hheld, List.mem_singleton]
  rfl

/-! ### Parts of a tree -/

theorem Ripe.congr (h : Ripe P held clock borrowed l e m) (hf : Freed P held m s freed)
    (hapart : ∀ q ∈ (tree false).cells (ownLeaf clock) (m.read P) l e, q ∉ freed) :
    Ripe P held clock borrowed l e s ∧
      (tree false).cells (ownLeaf clock) (s.read P) l e =
        (tree false).cells (ownLeaf clock) (m.read P) l e := by
  have hagree : (tree false).AgreeOn (m.read P) (s.read P)
      ((tree false).tables (m.read P) l e) := fun t ht =>
    hf.kept t (h.owned t (TableTree.tables_subset_cells ht)) (hapart t (TableTree.tables_subset_cells ht))
  have hcells : (tree false).cells (ownLeaf clock) (s.read P) l e =
      (tree false).cells (ownLeaf clock) (m.read P) l e := TableTree.cells_congr hagree
  refine ⟨⟨(TableTree.holds_congr hagree).mpr h.holds, ?_, ?_⟩, hcells⟩
  · exact hcells ▸ h.nodup
  · rw [hcells]
    exact fun q hq => (hf.outstanding q).mpr ⟨h.owned q hq, hapart q hq⟩

/-- What is below entry `i` of a table. -/
theorem Ripe.below (h : Ripe P held clock borrowed (l + 1) e m)
    (ht : (tree false).child e = some t) (hi : i < (tree false).fanout l) :
    Ripe P held clock borrowed l (m.read P t i) m := by
  have hcells := @TableTree.cells_of_some _ _ (tree false) (ownLeaf clock) (m.read P) l e t ht
  have hsub : ∀ q ∈ (tree false).cells (ownLeaf clock) (m.read P) l (m.read P t i),
      q ∈ (tree false).cells (ownLeaf clock) (m.read P) (l + 1) e := by
    intro q hq
    rw [hcells]
    exact List.mem_cons_of_mem _ (List.mem_flatMap.mpr ⟨i, List.mem_range.mpr hi, hq⟩)
  refine ⟨((TableTree.holds_of_some ht).mp h.holds i hi).2, ?_, fun q hq => h.owned q (hsub q hq)⟩
  have hnd := h.nodup
  rw [hcells, List.nodup_cons] at hnd
  exact (List.nodup_flatMap.mp hnd.2).1 i (List.mem_range.mpr hi)

/-- The slots below `k` hold nothing that slot `k` holds, and not their table. -/
theorem Ripe.apart (h : Ripe P held clock borrowed (l + 1) e m)
    (ht : (tree false).child e = some t) {k n : ℕ} (hk : k < n) (hn : n ≤ (tree false).fanout l) :
    (∀ q ∈ (tree false).cells (ownLeaf clock) (m.read P) l (m.read P t k),
      q ∉ (List.range k).flatMap fun i =>
        (tree false).cells (ownLeaf clock) (m.read P) l (m.read P t i)) ∧
      t ∉ (List.range k).flatMap fun i =>
        (tree false).cells (ownLeaf clock) (m.read P) l (m.read P t i) := by
  have hnd := h.nodup
  rw [TableTree.cells_of_some ht, List.nodup_cons] at hnd
  constructor
  · intro q hq hin
    obtain ⟨i, hi, hqi⟩ := List.mem_flatMap.mp hin
    have hik := List.mem_range.mp hi
    have hpair := (List.nodup_flatMap.mp hnd.2).2
    rw [List.pairwise_iff_getElem] at hpair
    have hdisj := hpair i k (by rw [List.length_range]; omega) (by rw [List.length_range]; omega) hik
    rw [List.getElem_range, List.getElem_range] at hdisj
    exact hdisj hqi hq
  · intro hin
    obtain ⟨i, hi, hqi⟩ := List.mem_flatMap.mp hin
    have hik := List.mem_range.mp hi
    exact hnd.1 (List.mem_flatMap.mpr ⟨i, List.mem_range.mpr (by omega), hqi⟩)

/-- What `below` has to do with the tables at a level. -/
def Frees (P : FramePool σ) (held : σ → Set UInt64) (clock : UInt64) (borrowed : Option UInt64)
    (l : ℕ) (below : UInt64 → Mem σ → ℕ × Mem σ) : Prop :=
  ∀ e u s, Ripe P held clock borrowed l e s → (tree false).child e = some u →
    ∃ freed s', below u s = (freed.length, s') ∧ Freed P held s s' freed ∧
      (u :: freed).Perm ((tree false).cells (ownLeaf clock) (s.read P) l e)

theorem freeSlot_spec (hP : P.Lawful held) (hborrowed : borrowed = none ∨ borrowed = some clock)
    {below : UInt64 → Mem σ → ℕ × Mem σ} {n k : ℕ}
    (hbelow : 0 < l → Frees P held clock borrowed l below)
    (hripe : Ripe P held clock borrowed l e s) (hread : s.read P t k = e) :
    ∃ freed s', AddressSpace.freeSlot P borrowed l below t (n, s) k = (n + freed.length, s') ∧
      Freed P held s s' freed ∧
      freed.Perm ((tree false).cells (ownLeaf clock) (s.read P) l e) := by
  cases hp : present e with
  | false =>
    refine ⟨[], s, ?_, Freed.refl s, ?_⟩
    · simp [AddressSpace.freeSlot, hread, hp]
    · rw [TableTree.cells_of_none (child_of_not_present hp)]
      simp [ownLeaf, hp]
  | true =>
    by_cases hleaf : l = 0 ∨ huge e
    · -- an entry without a table is a leaf of the space
      have hcells : (tree false).cells (ownLeaf clock) (s.read P) l e = ownLeaf clock e := by
        obtain rfl | hh := hleaf
        · rfl
        · exact TableTree.cells_of_none (child_of_huge hh)
      have hlast : UserLeaf clock borrowed e := by
        obtain rfl | hh := hleaf
        · exact hripe.holds
        · exact (TableTree.holds_of_none (child_of_huge hh)).mp hripe.holds
      have hskip : some (e &&& pteAddrMask) = borrowed ↔ e &&& pteAddrMask = clock := by
        constructor
        · rintro h
          obtain hnone | hsome := hborrowed
          · exact absurd (h.trans hnone) (Option.some_ne_none _)
          · exact Option.some.inj (h.trans hsome)
        · rintro h
          rw [((hlast hp).2.2.2 h).2, h]
      have hslot : AddressSpace.freeSlot P borrowed l below t (n, s) k =
          if some (e &&& pteAddrMask) == borrowed then (n, s)
          else (n + 1, freeFrame P (e &&& pteAddrMask) s) := by
        simp [AddressSpace.freeSlot, hread, hp, hleaf]
      have howned := hripe.owned
      rw [hcells] at howned ⊢
      by_cases hc : e &&& pteAddrMask = clock
      · refine ⟨[], s, ?_, Freed.refl s, ?_⟩
        · rw [hslot, if_pos (beq_iff_eq.mpr (hskip.mpr hc))]
          rfl
        · simp [ownLeaf, hc]
      · have hown : ownLeaf clock e = [e &&& pteAddrMask] := by simp [ownLeaf, hp, hc]
        rw [hown] at howned ⊢
        refine ⟨[e &&& pteAddrMask], _, ?_, freeFrame_freed hP (howned _ List.mem_cons_self),
          List.Perm.refl _⟩
        rw [hslot, if_neg fun h => hc (hskip.mp (beq_iff_eq.mp h))]
        rfl
    · rw [not_or] at hleaf
      have hh : huge e = false := Bool.not_eq_true _ ▸ hleaf.2
      have hchild := child_of_pointer false hp hh
      obtain ⟨freed, s₁, heq, hf, hperm⟩ := hbelow (by omega) e _ s hripe hchild
      have hnd := hperm.nodup_iff.mpr hripe.nodup
      have hmem : e &&& pteAddrMask ∈ held s₁.pool := by
        refine (hf.outstanding _).mpr ⟨?_, (List.nodup_cons.mp hnd).1⟩
        exact hripe.owned _ (hperm.mem_iff.mp List.mem_cons_self)
      refine ⟨(e &&& pteAddrMask) :: freed, _, ?_, hf.trans (freeFrame_freed hP hmem), hperm⟩
      simp [AddressSpace.freeSlot, hread, hp, hleaf.1, hh, heq, Nat.add_assoc]

theorem freeSlots_spec (hP : P.Lawful held) (hborrowed : borrowed = none ∨ borrowed = some clock)
    (below : UInt64 → Mem σ → ℕ × Mem σ) (hbelow : 0 < l → Frees P held clock borrowed l below)
    (hripe : Ripe P held clock borrowed (l + 1) e m) (ht : (tree false).child e = some t) {n : ℕ}
    (hn : n ≤ (tree false).fanout l) :
    ∃ freed m', forRange n (AddressSpace.freeSlot P borrowed l below t) (0, m) =
        (freed.length, m') ∧ Freed P held m m' freed ∧
      freed.Perm ((List.range n).flatMap fun i =>
        (tree false).cells (ownLeaf clock) (m.read P) l (m.read P t i)) := by
  have hroot : t ∈ held m.pool := hripe.owned t (by
    rw [TableTree.cells_of_some ht]
    exact List.mem_cons_self)
  have hloop := forRange_invariant (n := n) (s := ((0, m) : ℕ × Mem σ))
    (f := AddressSpace.freeSlot P borrowed l below t)
    (P := fun k acc => ∃ freed, acc.1 = freed.length ∧ Freed P held m acc.2 freed ∧
      freed.Perm ((List.range k).flatMap fun i =>
        (tree false).cells (ownLeaf clock) (m.read P) l (m.read P t i)))
    ⟨[], rfl, Freed.refl m, List.Perm.refl _⟩ (fun k hk acc hacc => by
      obtain ⟨count, s⟩ := acc
      obtain ⟨freed, hcount, hf, hperm⟩ := hacc
      dsimp only at hcount hf
      subst hcount
      obtain ⟨hapart, htable⟩ := hripe.apart ht hk hn
      have hwidth : k < 512 := (hk.trans_le hn).trans_le ((tree false).fanout_le l)
      -- the table and what its slot `k` holds are still there
      have hread : s.read P t k = m.read P t k :=
        hf.kept t hroot (fun hin => htable (hperm.mem_iff.mp hin)) k hwidth
      obtain ⟨hripe', hcells⟩ := (hripe.below ht (hk.trans_le hn)).congr hf
        fun q hq hin => hapart q hq (hperm.mem_iff.mp hin)
      obtain ⟨more, s', heq, hf', hperm'⟩ := freeSlot_spec hP hborrowed (n := freed.length) hbelow
        hripe' hread
      refine ⟨more ++ freed, ?_, ?_, ?_⟩
      · rw [heq, List.length_append, Nat.add_comm]
      · rw [heq]
        exact hf.trans hf'
      · rw [List.range_succ, List.flatMap_append, List.flatMap_singleton, ← hcells]
        exact List.perm_append_comm.trans (hperm.append hperm'))
  obtain ⟨freed, hcount, hf, hperm⟩ := hloop
  exact ⟨freed, _, Prod.ext hcount rfl, hf, hperm⟩

/-- `free_level` frees what is below a table. -/
theorem freeLevel_spec (hP : P.Lawful held) (hborrowed : borrowed = none ∨ borrowed = some clock)
    (hl : l ≤ 3) : Frees P held clock borrowed (l + 1) (AddressSpace.freeLevel P borrowed l) := by
  have hfan : ∀ l, l ≤ 3 → (tree false).fanout l = if l = 3 then kernelPml4First else 512 := by
    intro l _
    simp [tree, kernelPml4First]
  induction l with
  | zero =>
    intro e u s hripe hchild
    obtain ⟨freed, s', heq, hf, hperm⟩ := freeSlots_spec hP hborrowed
      (fun _ m => (0, m)) (fun h => absurd h (lt_irrefl 0)) hripe hchild le_rfl
    refine ⟨freed, s', ?_, hf, ?_⟩
    · rw [AddressSpace.freeLevel, ← heq]
      rfl
    · rw [TableTree.cells_of_some hchild]
      exact hperm.cons u
  | succ l ih =>
    intro e u s hripe hchild
    obtain ⟨freed, s', heq, hf, hperm⟩ := freeSlots_spec hP hborrowed
      (AddressSpace.freeLevel P borrowed l) (fun _ => ih (by omega)) hripe hchild le_rfl
    refine ⟨freed, s', ?_, hf, ?_⟩
    · rw [AddressSpace.freeLevel, ← heq, hfan (l + 1) hl]
    · rw [TableTree.cells_of_some hchild]
      exact hperm.cons u

/-- `destroy` frees the frames of the space, each once, and counts them. -/
theorem destroy_spec (hP : P.Lawful held) (hok : SpaceOk P held clock a m) :
    ∃ freed, (a.destroy P m).1 = freed.length ∧ Freed P held m (a.destroy P m).2 freed ∧
      freed.Perm (spaceFrames P clock a.root m) := by
  have hripe : Ripe P held clock a.borrowed 4 (rootEntry a.root) m := ⟨hok.holds, hok.nodup, hok.owned⟩
  obtain ⟨freed, m₁, heq, hf, hperm⟩ :=
    freeLevel_spec hP hok.borrowed le_rfl _ _ m hripe (child_rootEntry false hok.root)
  have hmem : a.root ∈ held m₁.pool := by
    refine (hf.outstanding _).mpr ⟨hok.owned _ hok.root_owned, ?_⟩
    exact (List.nodup_cons.mp (hperm.nodup_iff.mpr hok.nodup)).1
  refine ⟨a.root :: freed, ?_, ?_, hperm⟩
  · simp [AddressSpace.destroy, heq]
  · have hdone := hf.trans (freeFrame_freed hP hmem)
    simpa [AddressSpace.destroy, heq] using hdone

end

end StarOs.Kernel
