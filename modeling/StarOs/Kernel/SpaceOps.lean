import StarOs.Kernel.AddressSpace
import StarOs.Paging.Refinement

/-! What the operations on one address space do to its tree and to the frames. Every page of a
space is small, user, and never both writable and executable; what an operation takes from the
pool is in the tree afterwards or lost. -/

namespace StarOs.Kernel

open Library Library.Loop Paging

/-- The data frame an entry without a table holds; the clock's is not the space's own. -/
def ownLeaf (clock e : UInt64) : List UInt64 :=
  if present e && e &&& pteAddrMask != clock then [e &&& pteAddrMask] else []

/-- What an entry without a table may be. -/
def UserLeaf (clock : UInt64) (borrowed : Option UInt64) (e : UInt64) : Prop :=
  present e → huge e = false ∧ (Rights.fromBits e).user ∧
    ¬((Rights.fromBits e).write ∧ (Rights.fromBits e).exec) ∧
    (e &&& pteAddrMask = clock → (Rights.fromBits e).write = false ∧ borrowed = some clock)

section

variable {σ : Type} (P : FramePool σ) (held : σ → Set UInt64) (clock : UInt64)

/-- The tables of the lower half. -/
def spaceTables (root : UInt64) (m : Mem σ) : List UInt64 :=
  (tree false).tables (m.read P) 4 (rootEntry root)

/-- The tables of the lower half and the data frames they reach, without the clock's. -/
def spaceFrames (root : UInt64) (m : Mem σ) : List UInt64 :=
  (tree false).cells (ownLeaf clock) (m.read P) 4 (rootEntry root)

/-- The leaf of a lower-half address. -/
def spaceLeaf (root v : UInt64) (m : Mem σ) : Option (ℕ × UInt64) :=
  leafAt false (m.read P) 4 (rootEntry root) v

structure SpaceOk (a : AddressSpace) (m : Mem σ) : Prop where
  root : Framed a.root
  holds : (tree false).Holds Link (UserLeaf clock a.borrowed) (m.read P) 4 (rootEntry a.root)
  nodup : (spaceFrames P clock a.root m).Nodup
  owned : ∀ q ∈ spaceFrames P clock a.root m, q ∈ held m.pool
  clock_held : clock ∈ held m.pool
  clock_apart : clock ∉ spaceFrames P clock a.root m
  borrowed : a.borrowed = none ∨ a.borrowed = some clock

/-- An operation took the frames `taken`; those `lost` are in the tree no more. -/
structure Worked (a a' : AddressSpace) (m m' : Mem σ) (taken lost : List UInt64) : Prop where
  root : a'.root = a.root
  took : Took held m m' taken
  frame : ∀ t ∈ held m.pool, t ∉ spaceTables P a.root m → ∀ i < 512, m'.read P t i = m.read P t i
  upper : ∀ k < 512, 256 ≤ k → m'.read P a.root k = m.read P a.root k
  tables : ∀ q ∈ spaceTables P a.root m', q ∈ taken ∨ q ∈ spaceTables P a.root m
  cells : (spaceFrames P clock a.root m' ++ lost).Perm (taken ++ spaceFrames P clock a.root m)
  ok : SpaceOk P held clock a' m'

end

/-- A lower-half address. -/
def Lower (v : UInt64) : Prop := v.toNat < 2 ^ 47

section

variable {σ : Type} {P : FramePool σ} {held : σ → Set UInt64} {clock : UInt64}
  {a a' : AddressSpace} {m m' m₁ : Mem σ} {taken lost new gone : List UInt64} {v virt phys : UInt64}
  {rights : Rights}

theorem Lower.index (h : Lower v) : index v 3 < 256 := by
  rw [index_eq (by omega)]
  unfold Lower at h
  omega

theorem Lower.canonical (h : Lower v) : Canonical v := .inl h

theorem samePage_lower (hvirt : Lower virt) (hv : Lower v) :
    SamePage virt 0 4 v ↔ v.toNat / 4096 = virt.toNat / 4096 :=
  samePage_iff (Nat.zero_le 2) hvirt.canonical hv.canonical

theorem ownLeaf_blank : Blank (ownLeaf clock) := by
  intro e he
  simp [ownLeaf, he]

theorem userLeaf_zero {b : Option UInt64} : UserLeaf clock b 0 := fun h => absurd h (by decide)

theorem tables_nodup {leaf : UInt64 → List UInt64} {read : UInt64 → ℕ → UInt64} {l : ℕ}
    {e : UInt64} (h : ((tree false).cells leaf read l e).Nodup) :
    ((tree false).tables read l e).Nodup := by
  have hsub : ((tree false).tables read l e).Sublist ((tree false).cells leaf read l e) := by
    clear h
    induction l generalizing e with
    | zero => exact List.nil_sublist _
    | succ l ih =>
      cases ht : (tree false).child e with
      | none =>
        rw [TableTree.tables_of_none ht]
        exact List.nil_sublist _
      | some t =>
        rw [TableTree.tables_of_some ht, TableTree.cells_of_some ht]
        refine List.Sublist.cons_cons t ?_
        generalize List.range ((tree false).fanout l) = idx
        induction idx with
        | nil => exact List.Sublist.refl _
        | cons i idx ihi =>
          rw [List.flatMap_cons, List.flatMap_cons]
          exact ih.append ihi
  exact h.sublist hsub

theorem SpaceOk.tables_sub (_h : SpaceOk P held clock a m) :
    spaceTables P a.root m ⊆ spaceFrames P clock a.root m := TableTree.tables_subset_cells

/-- The tree of a space in order, as the mapper sees it. -/
theorem SpaceOk.built (h : SpaceOk P held clock a m) :
    Built (kernelFrames P) (heldBy held) false (UserLeaf clock a.borrowed) a.mapper m :=
  ⟨h.root, tables_nodup h.nodup, fun q hq => h.owned q (TableTree.tables_subset_cells hq), h.holds⟩

/-- A space depends on its own frames only. -/
theorem SpaceOk.congr (h : SpaceOk P held clock a m)
    (hheld : ∀ q ∈ held m.pool, q ∈ spaceFrames P clock a.root m ∨ q = clock → q ∈ held m'.pool)
    (hread : ∀ t ∈ spaceTables P a.root m, ∀ i < 512, m'.read P t i = m.read P t i) :
    SpaceOk P held clock a m' ∧ spaceFrames P clock a.root m' = spaceFrames P clock a.root m ∧
      spaceTables P a.root m' = spaceTables P a.root m ∧
      ∀ v, Lower v → spaceLeaf P a.root v m' = spaceLeaf P a.root v m := by
  have hframes : spaceFrames P clock a.root m' = spaceFrames P clock a.root m :=
    TableTree.cells_congr hread
  refine ⟨⟨h.root, (TableTree.holds_congr hread).mpr h.holds, ?_, ?_, ?_, ?_, h.borrowed⟩, hframes,
    TableTree.cells_congr hread, fun v hv => ?_⟩
  · rw [hframes]
    exact h.nodup
  · rw [hframes]
    exact fun q hq => hheld q (h.owned q hq) (.inl hq)
  · exact hheld clock h.clock_held (.inr rfl)
  · rw [hframes]
    exact h.clock_apart
  · simp only [spaceLeaf, leafAt]
    rw [TableTree.walk_congr (index_lt_fanout (.inr hv.index)) hread]

/-- The leaves of a space are small pages. -/
theorem SpaceOk.translate (hok : SpaceOk P held clock a m) (hv : index v 3 < 256) {t : Translation}
    (h : a.mapper.translate (kernelFrames P) v m = some t) :
    ∃ e, spaceLeaf P a.root v m = some (0, e) ∧ present e ∧ UserLeaf clock a.borrowed e ∧
      t.rights = Rights.fromBits e ∧
      t.phys.toNat = (e &&& pteAddrMask).toNat + v.toNat % 4096 := by
  rw [hok.built.translate (.inr hv)] at h
  obtain ⟨⟨level, e⟩, hleaf, rfl⟩ := Option.map_eq_some_iff.mp h
  have hpath : ∀ k, index v k < (tree false).fanout k := index_lt_fanout (.inr hv)
  have hlast := hok.holds.at_walk hpath
  have hend := @TableTree.walk_end _ _ (tree false) (m.read P) (index v) 4 (rootEntry a.root)
  have hwalk : (tree false).walk (index v) (m.read P) 4 (rootEntry a.root) = (level, e) ∧
      present e := by
    change leafAt false (m.read P) 4 (rootEntry a.root) v = some (level, e) at hleaf
    rw [leafAt] at hleaf
    split at hleaf
    · next hp =>
      rw [Option.some.inj hleaf] at hp
      exact ⟨Option.some.inj hleaf, hp⟩
    · cases hleaf
  obtain ⟨hwalk, hp⟩ := hwalk
  rw [hwalk] at hlast hend
  have hlevel : level = 0 := by
    refine hend.resolve_right fun hnone => ?_
    rw [child_of_pointer false hp (hlast hp).1] at hnone
    cases hnone
  subst hlevel
  refine ⟨e, hleaf, hp, hlast, rfl, ?_⟩
  have haddr := toNat_addr e
  have hpage := (page_parts (e &&& pteAddrMask) 0).2
  have hoff := (page_parts v 0).1
  rw [show (levelSize 0).toNat = 4096 from rfl] at hpage hoff
  simp only [leafTranslation]
  rw [UInt64.toNat_add, hpage, hoff]
  omega

theorem Worked.refl (h : SpaceOk P held clock a m) : Worked P held clock a a m m [] [] :=
  ⟨rfl, Took.refl m, fun _ _ _ _ _ => rfl, fun _ _ _ => rfl, fun _ hq => .inr hq, by simp, h⟩

theorem Worked.trans {a₁ : AddressSpace} (h : Worked P held clock a a₁ m m₁ taken lost)
    (h' : Worked P held clock a₁ a' m₁ m' new gone) :
    Worked P held clock a a' m m' (new ++ taken) (gone ++ lost) := by
  have hroot := h.root
  obtain ⟨hroot', htook, hframe, hupper, htables, hcells, hok⟩ := h'
  rw [hroot] at htables hcells hframe hupper
  constructor
  · exact hroot'.trans hroot
  · exact h.took.trans htook
  · intro t ht hmem i hi
    refine (hframe t ((h.took.outstanding t).mpr (.inr ht)) ?_ i hi).trans (h.frame t ht hmem i hi)
    exact fun hq => (h.tables t hq).elim (fun hq => h.took.fresh t hq ht) hmem
  · exact fun k hk hlo => (hupper k hk hlo).trans (h.upper k hk hlo)
  · intro q hq
    rw [List.mem_append]
    obtain hq | hq := htables q hq
    · exact .inl (.inl hq)
    · exact (h.tables q hq).imp_left .inr
  · calc spaceFrames P clock a.root m' ++ (gone ++ lost)
        |>.Perm (new ++ spaceFrames P clock a.root m₁ ++ lost) := by
          rw [← List.append_assoc]
          exact hcells.append_right lost
      _ |>.Perm (new ++ (taken ++ spaceFrames P clock a.root m)) := by
          rw [List.append_assoc]
          exact h.cells.append_left new
      _ |>.Perm _ := by rw [List.append_assoc]
  · exact hok

/-- One small page is one leaf. -/
theorem map_page {σ : Type} (F : FrameSource σ) (mp : Mapper) {s : σ} (hva : virt.toNat % 4096 = 0)
    (hpa : phys.toNat % 4096 = 0) :
    mp.map F virt phys pageSize rights s = mp.mapLeaf F virt phys rights .normal 0 s := by
  have hsa : pageSize.toNat % 4096 = 0 := by decide
  have hbig : fits virt phys pageSize size1G = false := by
    simp [fits, show ¬size1G ≤ pageSize by decide]
  have hmid : fits virt phys pageSize size2M = false := by
    simp [fits, show ¬size2M ≤ pageSize by decide]
  have hlevel : mp.stepLevel virt phys pageSize = 0 := by simp [Mapper.stepLevel, hbig, hmid]
  have hpages : pageSize.toNat / 4096 = 1 := by decide
  have hloop : mp.mapLoop F virt phys pageSize rights .normal 1 0 s =
      mp.mapLeaf F virt phys rights .normal 0 s := by
    rw [Mapper.mapLoop, if_pos (by decide)]
    simp only [UInt64.add_zero, UInt64.sub_zero, hlevel]
    cases hleaf : mp.mapLeaf F virt phys rights .normal 0 s with
    | mk res s' => cases res <;> rfl
  rw [Mapper.map, mapAs_eq, if_pos ⟨hva, hpa, hsa⟩, hpages, hloop]

/-- What mapping one frame does: `res` says whether the frame is in the tree afterwards. -/
structure Placing (P : FramePool σ) (held : σ → Set UInt64) (clock : UInt64) (a : AddressSpace)
    (virt phys : UInt64) (rights : Rights) (res : Except String Unit) (m m' : Mem σ)
    (made lost : List UInt64) : Prop where
  took : Took held m m' made
  frame : ∀ t ∈ held m.pool, t ∉ spaceTables P a.root m → ∀ i < 512, m'.read P t i = m.read P t i
  upper : ∀ k < 512, 256 ≤ k → m'.read P a.root k = m.read P a.root k
  tables : ∀ q ∈ spaceTables P a.root m', q ∈ made ∨ q ∈ spaceTables P a.root m
  cells : ∃ put, (spaceFrames P clock a.root m' ++ lost).Perm
      (made ++ put ++ spaceFrames P clock a.root m) ∧
    put = match res with
      | .ok () => if phys = clock then [] else [phys]
      | .error _ => []
  ok : SpaceOk P held clock a m'
  hit : res = .ok () → ∀ v, Lower v → v.toNat / 4096 = virt.toNat / 4096 →
    spaceLeaf P a.root v m' = some (0, leafEntry phys rights .normal 0)
  miss : ∀ v, Lower v → (∃ e, res = .error e) ∨ v.toNat / 4096 ≠ virt.toNat / 4096 →
    spaceLeaf P a.root v m' = spaceLeaf P a.root v m
  lost : (∃ e, res = .error e) ∨ spaceLeaf P a.root virt m = none → lost = []

theorem ownLeaf_leafEntry (hphys : Framed phys) :
    ownLeaf clock (leafEntry phys rights .normal 0) = if phys = clock then [] else [phys] := by
  obtain ⟨hp, -, haddr, -⟩ := leafEntry_spec rights .normal 0 hphys
  rw [ownLeaf, hp, haddr]
  by_cases hc : phys = clock
  · simp [hc]
  · simp [hc]

theorem map_spec (hP : P.Lawful held) (hok : SpaceOk P held clock a m) (hvirt : Lower virt)
    (hva : virt.toNat % 4096 = 0) (hphys : Framed phys) (huser : rights.user)
    (hwx : ¬(rights.write ∧ rights.exec))
    (hclock : phys = clock → rights.write = false ∧ a.borrowed = some clock)
    (hnew : phys = clock ∨ phys ∈ held m.pool ∧ phys ∉ spaceFrames P clock a.root m)
    {res : Except String Unit} (h : a.map P virt phys rights m = (res, m')) :
    ∃ made lost, Placing P held clock a virt phys rights res m m' made lost := by
  have hL := kernelFrames_lawful hP
  obtain ⟨hpresent, hhuge, haddr, hrights, -⟩ := leafEntry_spec rights .normal 0 hphys
  have hlast : UserLeaf clock a.borrowed (leafEntry phys rights .normal 0) := by
    intro _
    rw [haddr, hrights]
    exact ⟨by simpa using hhuge, huser, hwx, hclock⟩
  rw [AddressSpace.map, if_neg (by simp [huser]), map_page _ _ hva (framed_iff.mp hphys).1] at h
  cases hleaf : a.mapper.mapLeaf (kernelFrames P) virt phys rights .normal 0 m with
  | mk out m₁ =>
    rw [hleaf] at h
    obtain ⟨made, hchange, hone, -⟩ := mapLeaf_spec hL userLeaf_zero hok.built (by omega)
      (.inr hvirt.index) (framed_iff.mp hphys).1 hlast hleaf
    -- the two results say the same
    have hres : m₁ = m' ∧ placed out (leafEntry phys rights .normal 0) =
        match res with
        | .ok () => some (leafEntry phys rights .normal 0)
        | .error _ => none := by
      cases out with
      | ok => obtain ⟨rfl, rfl⟩ := Prod.ext_iff.mp h; exact ⟨rfl, rfl⟩
      | error e => obtain ⟨rfl, rfl⟩ := Prod.ext_iff.mp h; exact ⟨rfl, rfl⟩
    obtain ⟨rfl, hput⟩ := hres
    rw [hput] at hchange
    obtain ⟨lost, hperm, hlost⟩ := hchange.cells _ ownLeaf_blank
    have htables : ∀ q ∈ spaceTables P a.root m₁, q ∈ made ∨ q ∈ spaceTables P a.root m := by
      obtain ⟨gone, htab⟩ := hchange.tables
      exact fun q hq => List.mem_append.mp (htab.mem_iff.mp (List.mem_append_left gone hq))
    have htook := calls_took hP hchange.grown.calls
    have hframes : (spaceFrames P clock a.root m₁ ++ lost).Perm
        (made ++ (match res with
          | .ok () => if phys = clock then [] else [phys]
          | .error _ => []) ++ spaceFrames P clock a.root m) := by
      refine hperm.trans ?_
      cases res with
      | ok =>
        simp only [Option.elim_some, ownLeaf_leafEntry hphys]
        exact List.Perm.refl _
      | error e => exact List.Perm.refl _
    generalize hputs : (match res with
          | .ok () => if phys = clock then [] else [phys]
          | .error _ => []) = put at hframes
    have hput' : ∀ q ∈ put, q ≠ clock ∧ q ∈ held m.pool ∧ q ∉ spaceFrames P clock a.root m := by
      rintro q hq
      subst hputs
      split at hq
      · split at hq
        · exact absurd hq List.not_mem_nil
        · next hne =>
          obtain rfl := List.mem_singleton.mp hq
          exact ⟨hne, hnew.resolve_left hne⟩
      · exact absurd hq List.not_mem_nil
    have hputnd : put.Nodup := by
      subst hputs
      split
      · split
        · exact List.nodup_nil
        · exact List.nodup_singleton phys
      · exact List.nodup_nil
    have hmem : ∀ q ∈ spaceFrames P clock a.root m₁,
        q ∈ made ∨ q ∈ put ∨ q ∈ spaceFrames P clock a.root m := by
      intro q hq
      have hq := hframes.mem_iff.mp (List.mem_append_left lost hq)
      rw [List.append_assoc, List.mem_append, List.mem_append] at hq
      exact hq
    refine ⟨made, lost, htook, ?_, ?_, htables, ⟨put, hframes, hputs.symm⟩, ?_, ?_, ?_, ?_⟩
    · exact fun t ht hmem i hi => hchange.frame t ht i hi hmem not_false
    · exact fun k hk hlo => hone.beside k hk (by have := hvirt.index; omega)
    · refine ⟨hok.root, hchange.holds, ?_, ?_, ?_, ?_, hok.borrowed⟩
      · have hnd : (made ++ put ++ spaceFrames P clock a.root m).Nodup := by
          rw [List.append_assoc]
          refine List.nodup_append.mpr ⟨htook.nodup, List.nodup_append.mpr ⟨hputnd, hok.nodup, ?_⟩, ?_⟩
          · exact fun q hq q' hq' heq => (hput' q hq).2.2 (heq ▸ hq')
          · rintro q hq q' hq' rfl
            refine htook.fresh q hq ?_
            exact (List.mem_append.mp hq').elim (fun hq' => (hput' q hq').2.1) (hok.owned q)
        exact (List.nodup_append.mp (hframes.nodup_iff.mpr hnd)).1
      · intro q hq
        rw [htook.outstanding]
        exact (hmem q hq).imp_right fun hor => hor.elim (fun hq => (hput' q hq).2.1) (hok.owned q)
      · exact (htook.outstanding clock).mpr (.inr hok.clock_held)
      · intro hq
        obtain hq | hq | hq := hmem clock hq
        · exact htook.fresh clock hq hok.clock_held
        · exact (hput' clock hq).1 rfl
        · exact hok.clock_apart hq
    · rintro rfl v hv hpage
      have hsame : SamePage virt 0 4 v := (samePage_lower hvirt hv).mpr hpage
      exact (hchange.hit _ rfl v (.inr hv.index) hsame).trans (if_pos hpresent)
    · intro v hv hor
      refine hchange.miss v (.inr hv.index) (hor.imp ?_ ?_)
      · rintro ⟨e, rfl⟩
        rfl
      · exact fun hpage hsame => hpage ((samePage_lower hvirt hv).mp hsame)
    · intro hor
      rw [hlost rfl]
      cases res with
      | error e => rfl
      | ok =>
        obtain ⟨e, he⟩ | hnone := hor
        · cases he
        · change (leafAt false (m.read P) 4 (rootEntry a.root) virt).elim [] _ = []
          rw [show leafAt false (m.read P) 4 (rootEntry a.root) virt = none from hnone]
          rfl

theorem SpaceOk.root_table (h : SpaceOk P held clock a m) : a.root ∈ spaceTables P a.root m := by
  rw [spaceTables, TableTree.tables_of_some (child_rootEntry false h.root)]
  exact List.mem_cons_self

theorem SpaceOk.root_owned (h : SpaceOk P held clock a m) : a.root ∈ spaceFrames P clock a.root m :=
  h.tables_sub h.root_table

/-- Frames taken that no table of the space was changed for are lost to it. -/
theorem Worked.outside (hok : SpaceOk P held clock a m) (htook : Took held m m' taken)
    (hread : ∀ t ∈ held m.pool, ∀ i < 512, m'.read P t i = m.read P t i) :
    Worked P held clock a a m m' taken taken ∧
      ∀ v, Lower v → spaceLeaf P a.root v m' = spaceLeaf P a.root v m := by
  have hkeep : ∀ q ∈ held m.pool, q ∈ held m'.pool := fun q hq =>
    (htook.outstanding q).mpr (.inr hq)
  have htables : ∀ t ∈ spaceTables P a.root m, ∀ i < 512, m'.read P t i = m.read P t i :=
    fun t ht => hread t (hok.owned t (hok.tables_sub ht))
  obtain ⟨hok', hframes, htab, hleaf⟩ := hok.congr (fun q hq _ => hkeep q hq) htables
  refine ⟨⟨rfl, htook, fun t ht _ => hread t ht, fun k hk _ => ?_, fun q hq => ?_, ?_, hok'⟩, hleaf⟩
  · exact hread a.root (hok.owned a.root hok.root_owned) k hk
  · exact .inr (htab ▸ hq)
  · rw [hframes]
    exact List.perm_append_comm

/-- What loading one page does to the leaves of the space. -/
structure Paged (P : FramePool σ) (held : σ → Set UInt64) (root virt : UInt64) (bytes : List UInt8)
    (rights : Rights) (res : Except String Unit) (m m' : Mem σ) (lost : List UInt64) : Prop where
  hit : res = .ok () → ∃ frame, Framed frame ∧ frame ∈ held m'.pool ∧
    frame ∉ spaceTables P root m' ∧ (∀ i < 512, m'.read P frame i = pageWord bytes i) ∧
    ∀ v, Lower v → v.toNat / 4096 = virt.toNat / 4096 →
      spaceLeaf P root v m' = some (0, leafEntry frame rights .normal 0)
  miss : ∀ v, Lower v → v.toNat / 4096 ≠ virt.toNat / 4096 →
    spaceLeaf P root v m' = spaceLeaf P root v m
  lost : res = .ok () → spaceLeaf P root virt m = none → lost = []

theorem mapFresh_spec (hP : P.Lawful held) (hok : SpaceOk P held clock a m) (hvirt : Lower virt)
    (hva : virt.toNat % 4096 = 0) (huser : rights.user) (hwx : ¬(rights.write ∧ rights.exec))
    {message : String} {bytes : List UInt8} (hlen : bytes.length ≤ 4096)
    {res : Except String Unit} (h : a.mapFresh P message virt bytes rights m = (res, m')) :
    ∃ taken lost, Worked P held clock a a m m' taken lost ∧
      Paged P held a.root virt bytes rights res m m' lost := by
  unfold AddressSpace.mapFresh at h
  split at h
  · next m₁ ha =>
    obtain ⟨rfl, rfl⟩ := Prod.ext_iff.mp h
    obtain ⟨htook, hread⟩ := allocFrame_none hP ha
    obtain ⟨hw, hleaf⟩ := Worked.outside hok htook hread
    exact ⟨[], [], hw, nofun, fun v hv _ => hleaf v hv, nofun⟩
  · next frame m₁ ha =>
    obtain ⟨htook₁, hread₁⟩ := allocFrame_some hP ha
    have hmem₁ : frame ∈ held m₁.pool := (htook₁.outstanding frame).mpr (.inl List.mem_cons_self)
    have hfill := fill_stored hP hmem₁ hlen
    generalize copyToFrame P frame bytes (zeroFrame P frame m₁) = m₂ at h hfill
    have hfresh : frame ∉ held m.pool := htook₁.fresh frame List.mem_cons_self
    have htook : Took held m m₂ [frame] := htook₁.trans hfill.took
    have hread : ∀ t ∈ held m.pool, ∀ i < 512, m₂.read P t i = m.read P t i := by
      intro t ht i hi
      have hne : t ≠ frame := fun heq => hfresh (heq ▸ ht)
      exact (hfill.beside t ((htook₁.outstanding t).mpr (.inr ht)) hne i hi).trans (hread₁ t ht i hi)
    obtain ⟨hw, hleaf⟩ := Worked.outside hok htook hread
    have hsame : spaceFrames P clock a.root m₂ = spaceFrames P clock a.root m :=
      TableTree.cells_congr fun t ht => hread t (hok.owned t (hok.tables_sub ht))
    have hsameTables : spaceTables P a.root m₂ = spaceTables P a.root m :=
      TableTree.cells_congr fun t ht => hread t (hok.owned t (hok.tables_sub ht))
    have hmem : frame ∈ held m₂.pool := hfill.outstanding ▸ hmem₁
    have hapart : frame ∉ spaceFrames P clock a.root m₂ := by
      rw [hsame]
      exact fun hq => hfresh (hok.owned frame hq)
    have hne : frame ≠ clock := fun heq => hfresh (heq ▸ hok.clock_held)
    obtain ⟨made, lost, hp⟩ := map_spec hP hw.ok hvirt hva (htook.framed frame List.mem_cons_self)
      huser hwx (fun heq => absurd heq hne) (.inr ⟨hmem, hapart⟩) h
    have hnotTable : frame ∉ spaceTables P a.root m₂ := fun hq => hapart (hw.ok.tables_sub hq)
    have hframe : ∀ t ∈ held m.pool, t ∉ spaceTables P a.root m → ∀ i < 512,
        m'.read P t i = m.read P t i := by
      intro t ht hnot i hi
      refine (hp.frame t ((htook.outstanding t).mpr (.inr ht)) ?_ i hi).trans (hread t ht i hi)
      rw [hsameTables]
      exact hnot
    have hupper : ∀ k < 512, 256 ≤ k → m'.read P a.root k = m.read P a.root k := fun k hk hlo =>
      (hp.upper k hk hlo).trans (hw.upper k hk hlo)
    have htables : ∀ q ∈ spaceTables P a.root m',
        q ∈ made ++ [frame] ∨ q ∈ spaceTables P a.root m := by
      intro q hq
      rw [← hsameTables]
      exact (hp.tables q hq).imp_left (List.mem_append_left _)
    obtain ⟨put, hcells, hput⟩ := hp.cells
    rw [hsame] at hcells
    cases res with
    | ok =>
      obtain rfl : put = [frame] := hput.trans (if_neg hne)
      refine ⟨made ++ [frame], lost,
        ⟨rfl, htook.trans hp.took, hframe, hupper, htables, hcells, hp.ok⟩, ?_⟩
      refine ⟨fun _ => ⟨frame, htook.framed frame List.mem_cons_self, ?_, ?_, ?_, hp.hit rfl⟩, ?_, ?_⟩
      · exact (hp.took.outstanding frame).mpr (.inr hmem)
      · exact fun hq => (hp.tables frame hq).elim (fun hq => hp.took.fresh frame hq hmem) hnotTable
      · exact fun i hi => (hp.frame frame hmem hnotTable i hi).trans (hfill.word i hi)
      · exact fun v hv hpage => (hp.miss v hv (.inr hpage)).trans (hleaf v hv)
      · exact fun _ hnone => hp.lost (.inr ((hleaf virt hvirt).trans hnone))
    | error e =>
      obtain rfl : put = [] := hput
      refine ⟨made ++ [frame], frame :: lost,
        ⟨rfl, htook.trans hp.took, hframe, hupper, htables, ?_, hp.ok⟩, ?_⟩
      · calc spaceFrames P clock a.root m' ++ frame :: lost
            |>.Perm (frame :: (spaceFrames P clock a.root m' ++ lost)) := List.perm_middle
          _ |>.Perm (frame :: (made ++ spaceFrames P clock a.root m)) := by
            refine List.Perm.cons frame (hcells.trans ?_)
            rw [List.append_nil]
          _ |>.Perm (made ++ frame :: spaceFrames P clock a.root m) := List.perm_middle.symm
          _ |>.Perm _ := by rw [List.append_assoc, List.singleton_append]
      · exact ⟨nofun, fun v hv hpage => (hp.miss v hv (.inr hpage)).trans (hleaf v hv), nofun⟩

end

end StarOs.Kernel
