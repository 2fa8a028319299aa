import StarOs.Paging.Refinement

/-! Taking a page out. `unmap` walks to the leaf `translate` ended at and clears it, so the page
answers nothing and every other address answers as before. Then the trees that calls of this
crate can build: whatever the arguments, they stay in order. -/

namespace StarOs.Paging

open Library

section

variable {σ : Type} {F : FrameSource σ} {held : σ → Set UInt64} {whole : Bool}
  {last : UInt64 → Prop} {s s' : σ} {m : Mapper} {l : ℕ} {e t v : UInt64}

/-- A change below an entry its table's tree does not reach is a change of the tree. -/
theorem Change.below {virt : UInt64} {level : ℕ} {put : Option UInt64} {made : List UInt64}
    (h : Change F held whole last s s' (fun _ _ => False) l (F.read s t (index virt l))
      (F.read s t (index virt l)) virt level put made)
    (hv : whole ∨ index virt 3 < 256) (hlevel : level ≤ l)
    (hok : TreeOk F held whole last s (l + 1) e) (ht : (tree whole).child e = some t) :
    Change F held whole last s s' (fun _ _ => False) (l + 1) e e virt level put made ∧
      ∀ k < 512, F.read s' t k = F.read s t k := by
  have hi := index_lt_fanout hv l
  have hkeep : ∀ k < 512, F.read s' t k = F.read s t k := fun k hk =>
    h.frame t (hok.root_held ht) k hk (TableTree.not_mem_below hok.nodup ht hi) not_false
  have hentry := hkeep _ (index_lt virt l)
  have hslot : Change F held whole last s s' (fun q k => q = t ∧ k = index virt l) l
      (F.read s t (index virt l)) (F.read s' t (index virt l)) virt level put made := by
    rw [hentry]
    exact ⟨h.grown, fun q hq k hk hmem _ => h.frame q hq k hk hmem not_false, h.holds, h.cells,
      h.hit, h.miss⟩
  refine ⟨hslot.graft hv hlevel hok ht ?_, hkeep⟩
  rw [hentry]
  exact ((TableTree.holds_of_some ht).mp hok.holds _ hi).1

/-- Clearing an entry of a table. -/
theorem clear_change (hL : F.Lawful held) (hzero : last 0) (hv : whole ∨ index v 3 < 256)
    (hok : TreeOk F held whole last s (l + 1) e) (ht : (tree whole).child e = some t) :
    Change F held whole last s (F.write s t (index v l) 0) (fun _ _ => False) (l + 1) e e v l
      (some 0) [] := by
  have hheld := hok.root_held ht
  have hi := index_lt v l
  have hread := (hL.write s t _ 0 hheld hi).2 t hheld _ hi
  rw [if_pos ⟨rfl, rfl⟩] at hread
  refine (write_change whole v hL hheld hi (fun _ => child_zero) hzero).graft hv le_rfl hok ht ?_
  obtain ⟨hwrite, hexec, -⟩ :=
    ((TableTree.holds_of_some ht).mp hok.holds _ (index_lt_fanout hv l)).1
  rw [hread]
  exact ⟨hwrite, hexec, fun hpresent => absurd hpresent (by decide)⟩

/-- The walk of `unmap` clears the leaf; the table it starts at changes only if the leaf is
there. -/
theorem unmapFrom_spec (hL : F.Lawful held) (hzero : last 0) (hv : whole ∨ index v 3 < 256)
    (hok : TreeOk F held whole last s (l + 1) e) (ht : (tree whole).child e = some t)
    {p : ℕ × UInt64} (hp : leafAt whole (F.read s) (l + 1) e v = some p) :
    ∃ s', Mapper.unmapFrom F v s (l + 1) t = some s' ∧
      Change F held whole last s s' (fun _ _ => False) (l + 1) e e v p.1 (some 0) [] ∧
      (p.1 < l → ∀ k < 512, F.read s' t k = F.read s t k) := by
  induction l generalizing e t with
  | zero =>
    rw [leafAt_of_some ht] at hp
    have hp0 : p.1 = 0 := Nat.le_zero.mp (level_le_of_leafAt hp)
    refine ⟨_, rfl, ?_, by omega⟩
    rw [hp0]
    exact clear_change hL hzero hv hok ht
  | succ l ih =>
    rw [leafAt_of_some ht] at hp
    set x := F.read s t (index v (l + 1)) with hx
    have hpresent := present_of_leafAt hp
    cases hhuge : huge x with
    | true =>
      rw [leafAt_of_none (child_of_huge hhuge), if_pos hpresent] at hp
      obtain rfl := Option.some.inj hp
      refine ⟨_, ?_, clear_change hL hzero hv hok ht, fun hlt => absurd hlt (lt_irrefl _)⟩
      rw [Mapper.unmapFrom]
      exact if_pos (by simp [← hx, hhuge])
    | false =>
      have hu := child_of_pointer whole hpresent hhuge
      have hbelow := hok.below ht (index_lt_fanout hv (l + 1))
      obtain ⟨s', hwalk, hchange, -⟩ := ih hbelow hu hp
      have hlevel : p.1 ≤ l := level_le_of_leafAt (leafAt_of_some hu ▸ hp)
      obtain ⟨hup, hkeep⟩ := hchange.below hv (by omega) hok ht
      refine ⟨s', ?_, hup, fun _ => hkeep⟩
      rw [Mapper.unmapFrom, ← hwalk]
      exact if_neg (by simp [← hx, hhuge])

/-! ### Trees the crate builds -/

/-- A tree in order, with no page in the place of a whole top-level entry. -/
structure Sound (F : FrameSource σ) (held : σ → Set UInt64) (m : Mapper) (s : σ) : Prop where
  built : Built F held true (fun _ => True) m s
  flat : ∀ i < 512, huge (F.read s m.root i) = false

theorem Sound.level_le (hm : Sound F held m s) {p : ℕ × UInt64}
    (hp : leafAt true (F.read s) 4 (rootEntry m.root) v = some p) : p.1 ≤ 2 := by
  rw [leafAt_of_some (child_rootEntry true hm.built.root)] at hp
  have hhuge := hm.flat _ (index_lt v 3)
  have hu := child_of_pointer true (present_of_leafAt hp) hhuge
  exact level_le_of_leafAt (leafAt_of_some hu ▸ hp)

theorem OneEntry.flat {i : ℕ} {r : Rights} (h : OneEntry F s s' t i r)
    (hflat : ∀ k < 512, huge (F.read s t k) = false) : ∀ k < 512, huge (F.read s' t k) = false := by
  intro k hk
  by_cases hki : k = i
  · subst hki
    cases hp : present (F.read s t k) with
    | true =>
      obtain hsame | hwide := h.widened hp
      · rw [hsame]
        exact hflat k hk
      · rw [hwide, widened_entry.2.1]
        exact hflat k hk
    | false =>
      obtain hsame | hpointer := h.pointer hp
      · rw [hsame]
        exact hflat k hk
      · exact hpointer
  · rw [h.beside k hk hki]
    exact hflat k hk

/-- A call keeps a tree in order, whatever its arguments and however it ends. -/
theorem Sound.mapAs (hL : F.Lawful held) (hm : Sound F held m s) {virt phys size : UInt64}
    {r : Rights} {ty : MemoryType} {res : Except MapError Unit}
    (h : m.mapAs F virt phys size r ty s = (res, s')) : Sound F held m s' := by
  obtain ⟨hbuilt, hok, herr⟩ := mapAs_rule_any hL trivial (fun _ _ _ => trivial)
    (P := fun _ s => ∀ i < 512, huge (F.read s m.root i) = false)
    (Q := fun _ s => ∀ i < 512, huge (F.read s m.root i) = false)
    (fun done level res s s' made hm hP hturn =>
      ⟨fun _ => hturn.entry.flat hP, fun _ _ => hturn.entry.flat hP⟩)
    hm.built hm.flat (fun _ => hm.flat) h
  refine ⟨hbuilt, ?_⟩
  cases res with
  | ok => exact hok rfl
  | error err => exact herr err rfl

/-- `unmap` takes out the page `translate` finds, and does nothing where it finds none. -/
theorem Sound.unmap (hL : F.Lawful held) (hm : Sound F held m s) (v : UInt64) :
    (m.unmap F v s).1 = m.translate F v s ∧ Sound F held m (m.unmap F v s).2 ∧
      match leafAt true (F.read s) 4 (rootEntry m.root) v with
      | none => (m.unmap F v s).2 = s
      | some p => Change F held true (fun _ => True) s (m.unmap F v s).2 (fun _ _ => False) 4
          (rootEntry m.root) (rootEntry m.root) v p.1 (some 0) [] ∧
        ∀ i < 512, F.read (m.unmap F v s).2 m.root i = F.read s m.root i := by
  have htrans := hm.built.translate (v := v) (.inl rfl)
  cases hp : leafAt true (F.read s) 4 (rootEntry m.root) v with
  | none =>
    rw [hp, Option.map_none] at htrans
    have heq : m.unmap F v s = (none, s) := by rw [Mapper.unmap, htrans]
    rw [heq]
    exact ⟨htrans.symm, hm, rfl⟩
  | some p =>
    rw [hp, Option.map_some] at htrans
    have hlevel := hm.level_le hp
    obtain ⟨s', hwalk, hchange, hkeep⟩ := unmapFrom_spec hL trivial (.inl rfl) hm.built.tree
      (child_rootEntry true hm.built.root) hp
    have heq : m.unmap F v s = (some (leafTranslation v p), s') := by
      rw [Mapper.unmap, htrans]
      dsimp only
      rw [hwalk]
    rw [heq]
    have hroot := hkeep (by omega)
    refine ⟨htrans.symm, ⟨hm.built.change hchange, fun i hi => ?_⟩, hchange, hroot⟩
    rw [hroot i hi]
    exact hm.flat i hi

/-- The trees calls of this crate build, in a memory where other trees may be built too. -/
inductive Made (F : FrameSource σ) (held : σ → Set UInt64) (root : UInt64) : σ → Prop where
  | new {gib : Bool} {s s' : σ} (h : Mapper.new F gib s = (.ok ⟨root, gib⟩, s')) :
      Made F held root s'
  | map {gib : Bool} {s s' : σ} {virt phys size : UInt64} {r : Rights} {ty : MemoryType}
      {res : Except MapError Unit} (hm : Made F held root s)
      (h : (Mapper.adopt root gib).mapAs F virt phys size r ty s = (res, s')) : Made F held root s'
  | unmap {gib : Bool} {s : σ} (hm : Made F held root s) (v : UInt64) :
      Made F held root ((Mapper.adopt root gib).unmap F v s).2
  | elsewhere {s s' : σ} (hm : Made F held root s)
      (h : ∀ t ∈ (tree true).tables (F.read s) 4 (rootEntry root),
        t ∈ held s' ∧ ∀ i < 512, F.read s' t i = F.read s t i) : Made F held root s'

theorem Sound.gib (hm : Sound F held m s) (gib : Bool) : Sound F held ⟨m.root, gib⟩ s :=
  ⟨⟨hm.built.root, hm.built.tree⟩, hm.flat⟩

theorem Sound.root_mem (hm : Sound F held m s) :
    m.root ∈ (tree true).tables (F.read s) 4 (rootEntry m.root) :=
  (TableTree.mem_tables_of_some (child_rootEntry true hm.built.root)).mpr (.inl rfl)

/-- A tree in order stays so while its tables are held and not written. -/
theorem Sound.congr (hm : Sound F held m s)
    (h : ∀ t ∈ (tree true).tables (F.read s) 4 (rootEntry m.root),
      t ∈ held s' ∧ ∀ i < 512, F.read s' t i = F.read s t i) : Sound F held m s' := by
  have hagree := fun t ht => (h t ht).2
  refine ⟨⟨hm.built.root, ?_, ?_, ?_⟩, fun i hi => ?_⟩
  · rw [TableTree.tables, TableTree.cells_congr hagree]
    exact hm.built.tree.nodup
  · rw [TableTree.tables, TableTree.cells_congr hagree]
    exact fun t ht => (h t ht).1
  · exact (TableTree.holds_congr hagree).mpr hm.built.tree.holds
  · rw [hagree m.root hm.root_mem i hi]
    exact hm.flat i hi

theorem Made.sound (hL : F.Lawful held) {root : UInt64} (h : Made F held root s) (gib : Bool) :
    Sound F held ⟨root, gib⟩ s := by
  induction h generalizing gib with
  | new h =>
    have hbuilt := (new_built hL h).1
    refine ⟨⟨hbuilt.root, hbuilt.tree⟩, ?_⟩
    unfold Mapper.new at h
    split at h
    · cases h
    · next page s₁ ha =>
      obtain ⟨hroot, rfl⟩ := Prod.ext_iff.mp h
      obtain rfl : page = root := congrArg Mapper.root (Except.ok.inj hroot)
      intro i hi
      rw [(hL.alloc _ page s₁ ha).2.2.2.2.1 i hi]
      decide
  | map _ h ih => exact ((ih _).mapAs hL h).gib gib
  | unmap _ v ih => exact ((ih _).unmap hL v).2.1.gib gib
  | elsewhere _ h ih => exact (ih gib).congr h

end

end StarOs.Paging
