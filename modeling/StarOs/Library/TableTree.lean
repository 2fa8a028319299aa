import Mathlib.Data.List.Basic
import Mathlib.Data.List.Perm.Basic
import Mathlib.Data.List.Range
import Mathlib.Tactic.Common

/-! Trees of tables in a store. A table is a cell of the store with a fixed number of
entries, of which a tree may use only the first few at some levels; an entry may point to
a table one level down. The cells of a tree are listed in the order a traversal meets
them, and a walk follows one index a level down to the entry it ends at. Both look at the
tables of the tree only, so a change below one entry is a change to that entry's cells and
to the walks through it. -/

namespace StarOs.Library

/-- Where the entries of a tree point, how many a table has, and how many of those of a
level are the tree's. -/
structure TableTree (α ε : Type) where
  child : ε → Option α
  width : ℕ
  fanout : ℕ → ℕ
  fanout_le : ∀ l, fanout l ≤ width

namespace TableTree

variable {α ε : Type} (T : TableTree α ε)

/-- The cells below an entry at level `l`: its tables, and what `leaf` says the entries
without one hold. -/
def cells (leaf : ε → List α) (read : α → ℕ → ε) : ℕ → ε → List α
  | 0, e => leaf e
  | l + 1, e =>
    match T.child e with
    | none => leaf e
    | some t => t :: (List.range (T.fanout l)).flatMap fun i => cells leaf read l (read t i)

/-- The tables below an entry. -/
def tables : (α → ℕ → ε) → ℕ → ε → List α := T.cells fun _ => []

/-- The entry the walk along `path` ends at, and its level. -/
def walk (path : ℕ → ℕ) (read : α → ℕ → ε) : ℕ → ε → ℕ × ε
  | 0, e => (0, e)
  | l + 1, e =>
    match T.child e with
    | none => (l + 1, e)
    | some t => walk path read l (read t (path l))

/-- Every entry that points to a table is `link`ed to the entries there, and every entry
that does not is `last`. -/
def Holds (link : ε → ε → Prop) (last : ε → Prop) (read : α → ℕ → ε) : ℕ → ε → Prop
  | 0, e => last e
  | l + 1, e =>
    match T.child e with
    | none => last e
    | some t => ∀ i < T.fanout l, link e (read t i) ∧ Holds link last read l (read t i)

variable {T} {link : ε → ε → Prop} {last : ε → Prop} {leaf : ε → List α}
  {read read' : α → ℕ → ε} {path : ℕ → ℕ} {l i j : ℕ} {e e' : ε} {t : α}

theorem cells_of_none (h : T.child e = none) : T.cells leaf read l e = leaf e := by
  cases l with
  | zero => rfl
  | succ l => rw [cells, h]

theorem cells_of_some (h : T.child e = some t) : T.cells leaf read (l + 1) e =
    t :: (List.range (T.fanout l)).flatMap fun i => T.cells leaf read l (read t i) := by
  rw [cells, h]

theorem tables_of_none (h : T.child e = none) : T.tables read l e = [] := cells_of_none h

theorem tables_of_some (h : T.child e = some t) : T.tables read (l + 1) e =
    t :: (List.range (T.fanout l)).flatMap fun i => T.tables read l (read t i) := cells_of_some h

theorem walk_of_none (h : T.child e = none) : T.walk path read l e = (l, e) := by
  cases l with
  | zero => rfl
  | succ l => rw [walk, h]

theorem walk_of_some (h : T.child e = some t) :
    T.walk path read (l + 1) e = T.walk path read l (read t (path l)) := by
  rw [walk, h]

theorem holds_of_none (h : T.child e = none) : T.Holds link last read l e ↔ last e := by
  cases l with
  | zero => rfl
  | succ l => rw [Holds, h]

theorem holds_of_some (h : T.child e = some t) : T.Holds link last read (l + 1) e ↔
    ∀ i < T.fanout l, link e (read t i) ∧ T.Holds link last read l (read t i) := by
  rw [Holds, h]

theorem mem_tables_of_some {u : α} (h : T.child e = some t) : u ∈ T.tables read (l + 1) e ↔
    u = t ∨ ∃ i < T.fanout l, u ∈ T.tables read l (read t i) := by
  simp [tables_of_some h]

/-- The two stores agree on the tables listed. -/
def AgreeOn (T : TableTree α ε) (read read' : α → ℕ → ε) (l : List α) : Prop :=
  ∀ t ∈ l, ∀ i < T.width, read' t i = read t i

theorem AgreeOn.mono {ts us : List α} (h : T.AgreeOn read read' ts) (hsub : us ⊆ ts) :
    T.AgreeOn read read' us := fun t ht => h t (hsub ht)

theorem AgreeOn.below (h : T.AgreeOn read read' (T.tables read (l + 1) e)) (ht : T.child e = some t)
    (hi : i < T.fanout l) :
    read' t i = read t i ∧ T.AgreeOn read read' (T.tables read l (read t i)) := by
  refine ⟨h t ?_ i (hi.trans_le (T.fanout_le l)), h.mono fun u hu => ?_⟩
  · exact (mem_tables_of_some ht).mpr (.inl rfl)
  · exact (mem_tables_of_some ht).mpr (.inr ⟨i, hi, hu⟩)

/-- A tree does not depend on what lies outside its tables. -/
theorem cells_congr (h : T.AgreeOn read read' (T.tables read l e)) :
    T.cells leaf read' l e = T.cells leaf read l e := by
  induction l generalizing e with
  | zero => rfl
  | succ l ih =>
    cases ht : T.child e with
    | none => rw [cells_of_none ht, cells_of_none ht]
    | some t =>
      rw [cells_of_some ht, cells_of_some ht]
      congr 1
      refine List.flatMap_congr fun i hi => ?_
      obtain ⟨hread, hbelow⟩ := h.below ht (List.mem_range.mp hi)
      rw [hread, ih hbelow]

theorem walk_congr (hpath : ∀ k, path k < T.fanout k)
    (h : T.AgreeOn read read' (T.tables read l e)) :
    T.walk path read' l e = T.walk path read l e := by
  induction l generalizing e with
  | zero => rfl
  | succ l ih =>
    cases ht : T.child e with
    | none => rw [walk_of_none ht, walk_of_none ht]
    | some t =>
      obtain ⟨hread, hbelow⟩ := h.below ht (hpath l)
      rw [walk_of_some ht, walk_of_some ht, hread, ih hbelow]

theorem holds_congr (h : T.AgreeOn read read' (T.tables read l e)) :
    T.Holds link last read' l e ↔ T.Holds link last read l e := by
  induction l generalizing e with
  | zero => rfl
  | succ l ih =>
    cases ht : T.child e with
    | none => rw [holds_of_none ht, holds_of_none ht]
    | some t =>
      rw [holds_of_some ht, holds_of_some ht]
      refine forall₂_congr fun i hi => ?_
      obtain ⟨hread, hbelow⟩ := h.below ht hi
      rw [hread, ih hbelow]

/-- The cells of a tree, with less at its leaves. -/
theorem mem_cells_imp {leaf' : ε → List α} {C : α → Prop}
    (hleaf : ∀ e, ∀ q ∈ leaf e, C q ∨ q ∈ leaf' e) {q : α} (hq : q ∈ T.cells leaf read l e) :
    C q ∨ q ∈ T.cells leaf' read l e := by
  induction l generalizing e with
  | zero => exact hleaf e q hq
  | succ l ih =>
    cases ht : T.child e with
    | none =>
      rw [cells_of_none ht] at hq ⊢
      exact hleaf e q hq
    | some t =>
      rw [cells_of_some ht, List.mem_cons] at hq ⊢
      obtain rfl | hq := hq
      · exact .inr (.inl rfl)
      · obtain ⟨i, hi, hq⟩ := List.mem_flatMap.mp hq
        exact (ih hq).imp_right fun hq => .inr (List.mem_flatMap.mpr ⟨i, hi, hq⟩)

theorem tables_subset_cells : T.tables read l e ⊆ T.cells leaf read l e := by
  intro q hq
  refine (mem_cells_imp (C := fun _ => False) (fun _ _ h => ?_) hq).resolve_left not_false
  exact absurd h List.not_mem_nil

/-- A walk goes down while there is a table. -/
theorem walk_end : (T.walk path read l e).1 = 0 ∨ T.child (T.walk path read l e).2 = none := by
  induction l generalizing e with
  | zero => exact .inl rfl
  | succ l ih =>
    cases ht : T.child e with
    | none =>
      rw [walk_of_none ht]
      exact .inr ht
    | some t =>
      rw [walk_of_some ht]
      exact ih

/-- The entry a walk ends at is `last`. -/
theorem Holds.at_walk (h : T.Holds link last read l e) (hpath : ∀ k, path k < T.fanout k) :
    last (T.walk path read l e).2 := by
  induction l generalizing e with
  | zero => exact h
  | succ l ih =>
    cases ht : T.child e with
    | none =>
      rw [walk_of_none ht]
      exact (holds_of_none ht).mp h
    | some t =>
      rw [walk_of_some ht]
      exact ih ((holds_of_some ht).mp h _ (hpath l)).2

theorem Holds.mono {last' : ε → Prop} (h : T.Holds link last read l e)
    (hlast : ∀ e, last e → last' e) : T.Holds link last' read l e := by
  induction l generalizing e with
  | zero => exact hlast e h
  | succ l ih =>
    cases ht : T.child e with
    | none => exact (holds_of_none ht).mpr (hlast e ((holds_of_none ht).mp h))
    | some t =>
      rw [holds_of_some ht] at h ⊢
      exact fun i hi => (h i hi).imp_right ih

/-! ### One entry of a table -/

theorem flatMap_range_perm {β : Type} (f : ℕ → List β) {n : ℕ} (hi : i < n) :
    ((List.range n).flatMap f).Perm (f i ++ ((List.range n).erase i).flatMap f) := by
  have hperm := List.perm_cons_erase (List.mem_range.mpr hi)
  simpa using hperm.flatMap_right f

theorem flatMap_erase_congr {β : Type} {f g : ℕ → List β} {n : ℕ}
    (h : ∀ j < n, j ≠ i → f j = g j) :
    ((List.range n).erase i).flatMap f = ((List.range n).erase i).flatMap g := by
  refine List.flatMap_congr fun j hj => ?_
  have hmem := (List.nodup_range.mem_erase_iff).mp hj
  exact h j (List.mem_range.mp hmem.2) hmem.1

section

variable (hnd : (T.tables read (l + 1) e).Nodup) (ht : T.child e = some t)
include hnd ht

theorem not_mem_below (hi : i < T.fanout l) : t ∉ T.tables read l (read t i) := by
  rw [tables_of_some ht, List.nodup_cons] at hnd
  exact fun hmem => hnd.1 (List.mem_flatMap.mpr ⟨i, List.mem_range.mpr hi, hmem⟩)

theorem nodup_below (hi : i < T.fanout l) : (T.tables read l (read t i)).Nodup := by
  rw [tables_of_some ht, List.nodup_cons] at hnd
  have hperm := (flatMap_range_perm (fun i => T.tables read l (read t i)) hi).nodup_iff.mp hnd.2
  exact (List.nodup_append.mp hperm).1

theorem disjoint_below (hi : i < T.fanout l) (hj : j < T.fanout l) (hij : j ≠ i) {u : α}
    (hu : u ∈ T.tables read l (read t j)) : u ∉ T.tables read l (read t i) := by
  rw [tables_of_some ht, List.nodup_cons] at hnd
  have hperm := (flatMap_range_perm (fun i => T.tables read l (read t i)) hi).nodup_iff.mp hnd.2
  obtain ⟨-, -, hdisj⟩ := List.nodup_append.mp hperm
  intro hu'
  refine hdisj u hu' u (List.mem_flatMap.mpr ⟨j, ?_, hu⟩) rfl
  exact (List.nodup_range.mem_erase_iff).mpr ⟨hij, List.mem_range.mpr hj⟩

/-- A change below entry `i`, in that entry or in the tables there, leaves the other
entries of the table and everything below them alone. -/
theorem agree_beside (hi : i < T.fanout l) (hj : j < T.fanout l) (hij : j ≠ i)
    (hkeep : ∀ u ∈ T.tables read (l + 1) e, ∀ k < T.width, u ∉ T.tables read l (read t i) →
      ¬ (u = t ∧ k = i) → read' u k = read u k) :
    read' t j = read t j ∧ T.AgreeOn read read' (T.tables read l (read t j)) := by
  constructor
  · refine hkeep t ((mem_tables_of_some ht).mpr (.inl rfl)) j (hj.trans_le (T.fanout_le l))
      (not_mem_below hnd ht hi) ?_
    exact fun h => hij h.2
  · intro u hu k hk
    refine hkeep u ((mem_tables_of_some ht).mpr (.inr ⟨j, hj, hu⟩)) k hk
      (disjoint_below hnd ht hi hj hij hu) ?_
    rintro ⟨rfl, -⟩
    exact not_mem_below hnd ht hj hu

/-- What a change below entry `i` adds and loses there is what it adds and loses. -/
theorem cells_graft (hi : i < T.fanout l) (ht' : T.child e' = some t)
    (hkeep : ∀ u ∈ T.tables read (l + 1) e, ∀ k < T.width, u ∉ T.tables read l (read t i) →
      ¬ (u = t ∧ k = i) → read' u k = read u k)
    {lost new : List α} (h : (T.cells leaf read' l (read' t i) ++ lost).Perm
      (new ++ T.cells leaf read l (read t i))) :
    (T.cells leaf read' (l + 1) e' ++ lost).Perm (new ++ T.cells leaf read (l + 1) e) := by
  rw [cells_of_some ht, cells_of_some ht']
  have hrest : ((List.range (T.fanout l)).erase i).flatMap
        (fun i => T.cells leaf read' l (read' t i)) =
      ((List.range (T.fanout l)).erase i).flatMap (fun i => T.cells leaf read l (read t i)) := by
    refine flatMap_erase_congr fun j hj hij => ?_
    obtain ⟨hread, hagree⟩ := agree_beside hnd ht hi hj hij hkeep
    rw [hread, cells_congr hagree]
  have hold := flatMap_range_perm (fun i => T.cells leaf read l (read t i)) hi
  have hnew := flatMap_range_perm (fun i => T.cells leaf read' l (read' t i)) hi
  rw [hrest] at hnew
  set rest := ((List.range (T.fanout l)).erase i).flatMap fun i => T.cells leaf read l (read t i)
  set old := T.cells leaf read l (read t i)
  set cur := T.cells leaf read' l (read' t i)
  have hswap : (rest ++ lost).Perm (lost ++ rest) := List.perm_append_comm
  calc t :: _ ++ lost
      |>.Perm (t :: (cur ++ rest) ++ lost) := (hnew.cons t).append_right lost
    _ |>.Perm (t :: (cur ++ lost ++ rest)) := by
      simpa [List.append_assoc] using (hswap.append_left cur).cons t
    _ |>.Perm (t :: (new ++ old ++ rest)) := (h.append_right rest).cons t
    _ |>.Perm (new ++ t :: (old ++ rest)) := by
      simpa [List.append_assoc] using (List.perm_middle (a := t)).symm
    _ |>.Perm _ := (hold.symm.cons t).append_left new

theorem holds_graft (hi : i < T.fanout l) (h : T.Holds link last read (l + 1) e)
    (hkeep : ∀ u ∈ T.tables read (l + 1) e, ∀ k < T.width, u ∉ T.tables read l (read t i) →
      ¬ (u = t ∧ k = i) → read' u k = read u k)
    (hlink : link e (read' t i)) (hbelow : T.Holds link last read' l (read' t i)) :
    T.Holds link last read' (l + 1) e := by
  rw [holds_of_some ht] at h ⊢
  intro j hj
  by_cases hij : j = i
  · subst hij
    exact ⟨hlink, hbelow⟩
  · obtain ⟨hread, hagree⟩ := agree_beside hnd ht hi hj hij hkeep
    rw [hread]
    exact ⟨(h j hj).1, (holds_congr hagree).mpr (h j hj).2⟩

theorem walk_graft (hi : i < T.fanout l) (hpath : ∀ k, path k < T.fanout k) (hne : path l ≠ i)
    (hkeep : ∀ u ∈ T.tables read (l + 1) e, ∀ k < T.width, u ∉ T.tables read l (read t i) →
      ¬ (u = t ∧ k = i) → read' u k = read u k) :
    T.walk path read' (l + 1) e = T.walk path read (l + 1) e := by
  obtain ⟨hread, hagree⟩ := agree_beside hnd ht hi (hpath l) hne hkeep
  rw [walk_of_some ht, walk_of_some ht, hread, walk_congr hpath hagree]

end

end TableTree

end StarOs.Library
