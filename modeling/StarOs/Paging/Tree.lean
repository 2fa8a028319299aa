import StarOs.Library.TableTree
import StarOs.Paging.Mapper

/-! The tree the tables form, and what `translate` computes on it: in a tree whose pointing
entries restrict nothing, the rights along the walk are the rights of the leaf. -/

namespace StarOs.Paging

open Library

/-- A page-table tree; with `whole` false only the lower half of the top table is its own. -/
def tree (whole : Bool) : TableTree UInt64 UInt64 where
  child e := if present e && !huge e then some (e &&& pteAddrMask) else none
  width := 512
  fanout l := if l = 3 ∧ whole = false then 256 else 512
  fanout_le l := by split <;> omega

section

variable {whole : Bool} {e x t : UInt64}

theorem child_of_not_present (h : present e = false) : (tree whole).child e = none := by
  simp [tree, h]

theorem child_of_huge (h : huge e) : (tree whole).child e = none := by
  simp [tree, h]

theorem child_of_pointer (whole : Bool) (hp : present e) (hh : huge e = false) :
    (tree whole).child e = some (e &&& pteAddrMask) := by
  simp [tree, hp, hh]

theorem child_zero : (tree whole).child 0 = none := child_of_not_present (by decide)

theorem child_eq_some : (tree whole).child e = some t ↔
    present e ∧ huge e = false ∧ e &&& pteAddrMask = t := by
  simp [tree, and_assoc]

theorem index_lt_fanout {v : UInt64} (hv : whole ∨ index v 3 < 256) (l : ℕ) :
    index v l < (tree whole).fanout l := by
  simp only [tree]
  split
  · next h =>
    obtain ⟨rfl, rfl⟩ := h
    simpa using hv
  · exact index_lt v l

end

/-- A pointing entry takes no right from a leaf below it: it is writable and executable,
and a user entry is only below a user entry. -/
def Link (e x : UInt64) : Prop :=
  (Rights.fromBits e).write ∧ (Rights.fromBits e).exec ∧
    (present x → (Rights.fromBits x).user → (Rights.fromBits e).user)

/-- An entry that points to the top table and restricts nothing, as `CR3` does. -/
def rootEntry (root : UInt64) : UInt64 := root ||| intermediateBits ⟨true, true, true⟩

theorem rootEntry_link {root : UInt64} (h : Framed root) (x : UInt64) : Link (rootEntry root) x := by
  obtain ⟨-, -, -, hrights⟩ := intermediate_entry (r := ⟨true, true, true⟩) h
  rw [Link, rootEntry, hrights]
  simp

theorem child_rootEntry (whole : Bool) {root : UInt64} (h : Framed root) :
    (tree whole).child (rootEntry root) = some root := by
  obtain ⟨hpresent, hhuge, haddr, -⟩ := intermediate_entry (r := ⟨true, true, true⟩) h
  exact child_eq_some.mpr ⟨hpresent, hhuge, haddr⟩

/-- The leaf the walk to `v` ends at, with its level. -/
def leafAt (whole : Bool) (read : UInt64 → ℕ → UInt64) (l : ℕ) (e v : UInt64) : Option (ℕ × UInt64) :=
  let p := (tree whole).walk (index v) read l e
  if present p.2 then some p else none

section

variable {whole : Bool} {read : UInt64 → ℕ → UInt64} {l : ℕ} {e t v : UInt64}

theorem leafAt_of_none (h : (tree whole).child e = none) :
    leafAt whole read l e v = if present e then some (l, e) else none := by
  simp only [leafAt, TableTree.walk_of_none h]

theorem leafAt_of_some (h : (tree whole).child e = some t) :
    leafAt whole read (l + 1) e v = leafAt whole read l (read t (index v l)) v := by
  simp only [leafAt, TableTree.walk_of_some h]

theorem leafAt_zero : leafAt whole read 0 e v = if present e then some (0, e) else none := rfl

/-- What a leaf makes of an address. -/
def leafTranslation (v : UInt64) (p : ℕ × UInt64) : Translation :=
  let size := levelSize p.1
  ⟨(p.2 &&& pteAddrMask &&& ~~~(size - 1)) + (v &&& (size - 1)), Rights.fromBits p.2,
    MemoryType.fromBits p.2, size⟩

variable {last : UInt64 → Prop}

/-- A top table without entries. -/
theorem blank_tree {root : UInt64} {leaf : UInt64 → List UInt64} (hroot : Framed root)
    (hblank : ∀ i < (tree whole).fanout 3, read root i = 0) (hlast : last 0) (hleaf : leaf 0 = []) :
    (tree whole).cells leaf read 4 (rootEntry root) = [root] ∧
      (tree whole).Holds Link last read 4 (rootEntry root) ∧
      ∀ v, whole ∨ index v 3 < 256 → leafAt whole read 4 (rootEntry root) v = none := by
  have hchild := child_rootEntry whole hroot
  refine ⟨?_, ?_, fun v hv => ?_⟩
  · rw [TableTree.cells_of_some hchild, List.flatMap_eq_nil_iff.mpr]
    intro i hi
    rw [hblank i (List.mem_range.mp hi), TableTree.cells_of_none child_zero, hleaf]
  · rw [TableTree.holds_of_some hchild]
    intro i hi
    rw [hblank i hi, TableTree.holds_of_none child_zero]
    exact ⟨rootEntry_link hroot 0, hlast⟩
  · rw [leafAt_of_some hchild, hblank _ (index_lt_fanout hv 3), leafAt_of_none child_zero]
    rfl

theorem present_of_leafAt {p : ℕ × UInt64} (hp : leafAt whole read l e v = some p) : present e := by
  cases ht : (tree whole).child e with
  | none =>
    rw [leafAt_of_none ht] at hp
    by_contra hno
    simp [hno] at hp
  | some t => exact (child_eq_some.mp ht).1

theorem level_le_of_leafAt {p : ℕ × UInt64} (h : leafAt whole read l e v = some p) : p.1 ≤ l := by
  have hhere : ∀ l e, (if present e then some (l, e) else none) = some p → p.1 ≤ l := by
    intro l e h
    split at h
    · rw [← Option.some.inj h]
    · cases h
  induction l generalizing e with
  | zero => exact hhere 0 e h
  | succ l ih =>
    cases ht : (tree whole).child e with
    | none => exact hhere (l + 1) e (leafAt_of_none ht ▸ h)
    | some t =>
      rw [leafAt_of_some ht] at h
      exact (ih h).trans (Nat.le_succ l)

/-- Addresses on the page of a leaf end there. -/
theorem leafAt_same {p : ℕ × UInt64} {w : UInt64} (h : leafAt whole read l e v = some p)
    (hsame : ∀ k, p.1 ≤ k → k < l → index w k = index v k) : leafAt whole read l e w = some p := by
  induction l generalizing e with
  | zero => exact h
  | succ l ih =>
    cases ht : (tree whole).child e with
    | none =>
      rw [leafAt_of_none ht] at h ⊢
      exact h
    | some t =>
      rw [leafAt_of_some ht] at h ⊢
      rw [hsame l (level_le_of_leafAt h) (Nat.lt_succ_self l)]
      exact ih h fun k hk hkl => hsame k hk (hkl.trans (Nat.lt_succ_self l))

/-- A walk's entries restrict nothing the leaf grants. -/
theorem intersect_leaf (hv : whole ∨ index v 3 < 256) (h : (tree whole).Holds Link last read l e)
    {p : ℕ × UInt64} (hp : leafAt whole read l e v = some p) :
    (Rights.fromBits e).intersect (Rights.fromBits p.2) = Rights.fromBits p.2 := by
  have hlast : ∀ l e, (if present e then some (l, e) else none) = some p →
      (Rights.fromBits e).intersect (Rights.fromBits p.2) = Rights.fromBits p.2 := by
    intro l e hp
    split at hp
    · obtain rfl := Option.some.inj hp
      exact Rights.intersect_self _
    · cases hp
  induction l generalizing e with
  | zero => exact hlast 0 e hp
  | succ l ih =>
    cases ht : (tree whole).child e with
    | none =>
      rw [leafAt_of_none ht] at hp
      exact hlast (l + 1) e hp
    | some t =>
      rw [leafAt_of_some ht] at hp
      obtain ⟨⟨hwrite, hexec, huser⟩, hbelow⟩ :=
        (TableTree.holds_of_some ht).mp h _ (index_lt_fanout hv l)
      have hx := ih hbelow hp
      have hup : (Rights.fromBits p.2).user → (Rights.fromBits e).user := by
        intro hu
        rw [← hx] at hu
        exact huser (present_of_leafAt hp) (Bool.and_eq_true_iff.mp hu).1
      ext
      · simp [Rights.intersect, hwrite]
      · simp [Rights.intersect, hexec]
      · simpa [Rights.intersect] using hup

variable {σ : Type} {F : FrameSource σ} {s : σ}

theorem translateFrom_eq (hv : whole ∨ index v 3 < 256) {eff : Rights}
    (h : (tree whole).Holds Link last (F.read s) l (F.read s t (index v l))) :
    Mapper.translateFrom F v s (l + 1) t eff =
      (leafAt whole (F.read s) l (F.read s t (index v l)) v).map fun p =>
        { leafTranslation v p with rights := eff.intersect (Rights.fromBits p.2) } := by
  induction l generalizing t eff with
  | zero =>
    rw [leafAt_zero]
    cases hp : present (F.read s t (index v 0)) <;> simp [Mapper.translateFrom, leafTranslation, hp]
  | succ l ih =>
    rw [Mapper.translateFrom]
    generalize F.read s t (index v (l + 1)) = e at h ⊢
    cases hp : present e
    · simp [leafAt_of_none (child_of_not_present hp), hp]
    · cases hh : huge e
      · have ht := child_of_pointer whole hp hh
        obtain ⟨-, hbelow⟩ := (TableTree.holds_of_some ht).mp h _ (index_lt_fanout hv l)
        simp only [Bool.not_true, Bool.false_eq_true, if_false, Nat.succ_ne_zero, beq_iff_eq,
          Bool.or_false, ih hbelow, leafAt_of_some ht]
        refine Option.map_congr fun p hleaf => ?_
        have hsub := intersect_leaf hv h (p := p) (by rwa [leafAt_of_some ht])
        rw [Rights.intersect_assoc, hsub]
      · simp [leafAt_of_none (child_of_huge hh), hp, leafTranslation]

/-- `translate` reads the leaf the walk from the root ends at. -/
theorem translate_eq {m : Mapper} (hroot : Framed m.root) (hv : whole ∨ index v 3 < 256)
    (h : (tree whole).Holds Link last (F.read s) 4 (rootEntry m.root)) :
    m.translate F v s =
      (leafAt whole (F.read s) 4 (rootEntry m.root) v).map (leafTranslation v) := by
  have ht := child_rootEntry whole hroot
  obtain ⟨-, hbelow⟩ := (TableTree.holds_of_some ht).mp h _ (index_lt_fanout hv 3)
  rw [Mapper.translate, translateFrom_eq hv hbelow, leafAt_of_some ht]
  simp only [Rights.all_intersect]
  rfl

end

end StarOs.Paging
