import StarOs.Paging.Unmap

/-! What a call touches. It stores to tables of its own tree and to tables it was just given,
and of the top table it changes the entries of the addresses it maps; one that is there already
changes only to let a user through. -/

namespace StarOs.Paging

open Library

/-- Between two states a tree grew by `made`, and nothing handed out before changed beside it. -/
structure Extends {σ : Type} (F : FrameSource σ) (held : σ → Set UInt64) (root : UInt64)
    (s s' : σ) (made : List UInt64) : Prop where
  grown : Grown F held s s' made
  frame : ∀ q ∈ held s, q ∉ (tree true).tables (F.read s) 4 (rootEntry root) →
    ∀ k < 512, F.read s' q k = F.read s q k
  tables : ∀ q ∈ (tree true).tables (F.read s') 4 (rootEntry root),
    q ∈ made ∨ q ∈ (tree true).tables (F.read s) 4 (rootEntry root)

section

variable {σ : Type} {F : FrameSource σ} {held : σ → Set UInt64} {s s' s₁ : σ} {m : Mapper}
  {root e virt phys size v : UInt64} {i level : ℕ} {r : Rights} {ty : MemoryType}
  {put : Option UInt64} {made new : List UInt64} {res : Except MapError Unit}

theorem Extends.refl : Extends F held root s s [] :=
  ⟨Grown.same (.refl s) rfl, fun _ _ _ _ _ => rfl, fun _ hq => .inr hq⟩

theorem Extends.trans (h : Extends F held root s s₁ made) (h' : Extends F held root s₁ s' new) :
    Extends F held root s s' (new ++ made) where
  grown := h.grown.trans h'.grown
  frame q hq hnot k hk := by
    refine (h'.frame q ((h.grown.owned q).mpr (.inr hq)) (fun hin => ?_) k hk).trans
      (h.frame q hq hnot k hk)
    exact (h.tables q hin).elim (fun hmade => h.grown.fresh q hmade hq) hnot
  tables q hq := by
    rw [List.mem_append]
    obtain hq | hq := h'.tables q hq
    · exact .inl (.inl hq)
    · exact (h.tables q hq).imp_left .inr

theorem Change.extends {last : UInt64 → Prop}
    (h : Change F held true last s s' (fun _ _ => False) 4 (rootEntry root) (rootEntry root) virt
      level put made) : Extends F held root s s' made := by
  refine ⟨h.grown, fun q hq hnot k hk => h.frame q hq k hk hnot not_false, fun q hq => ?_⟩
  obtain ⟨lost, hperm⟩ := h.tables
  exact List.mem_append.mp (hperm.mem_iff.mp (List.mem_append_left lost hq))

theorem or_bit_eq {b : UInt64} {k : ℕ} (hb : b.toNat = 2 ^ k) (h : (e &&& b != 0) = true) :
    e ||| b = e := by
  have hset : e.toNat.testBit k = true := by
    by_contra hclear
    have hzero : e &&& b = 0 := by
      apply UInt64.toNat_inj.mp
      apply Nat.eq_of_testBit_eq
      intro j
      rw [UInt64.toNat_and, hb, Nat.testBit_and, Nat.testBit_two_pow]
      by_cases hj : k = j
      · subst hj
        simpa using hclear
      · simp [hj]
    simp [hzero] at h
  apply UInt64.toNat_inj.mp
  apply Nat.eq_of_testBit_eq
  intro j
  rw [UInt64.toNat_or, hb, Nat.testBit_or, Nat.testBit_two_pow]
  by_cases hj : k = j
  · subst hj
    simp [hset]
  · simp [hj]

/-- An entry that is present and writable is as wide as a supervisor needs. -/
theorem widened_supervisor (hp : present e) (hw : (Rights.fromBits e).write)
    (hr : r.user = false) : e ||| intermediateBits r = e := by
  have hpresent : e ||| ptePresent = e := or_bit_eq (k := 0) rfl hp
  have hwrite : e ||| pteWrite = e := or_bit_eq (k := 1) rfl hw
  rw [intermediateBits, hr, if_neg Bool.false_ne_true, UInt64.or_zero, ← UInt64.or_assoc, hpresent,
    hwrite]

/-- An entry of the top table that a call leaves alone: it maps nothing there, or it is a
supervisor's and the entry is there. -/
def Kept (F : FrameSource σ) (root virt size : UInt64) (r : Rights) (s : σ) (i : ℕ) : Prop :=
  ∀ off : UInt64, off.toNat < size.toNat → index (virt + off) 3 = i →
    present (F.read s root i) ∧ r.user = false

theorem Sound.writable (hm : Sound F held m s) (hi : i < 512)
    (hp : present (F.read s m.root i)) : (Rights.fromBits (F.read s m.root i)).write := by
  have hroot := child_rootEntry true hm.built.root
  obtain ⟨-, hbelow⟩ := (TableTree.holds_of_some hroot).mp hm.built.tree.holds i hi
  have hchild := child_of_pointer true hp (hm.flat i hi)
  exact ((TableTree.holds_of_some hchild).mp hbelow 0 (Nat.zero_lt_succ 511)).1.1

theorem Sound.mapAs_footprint (hL : F.Lawful held) (hm : Sound F held m s)
    (h : m.mapAs F virt phys size r ty s = (res, s')) : ∃ made, Extends F held m.root s s' made ∧
      ∀ i < 512, Kept F m.root virt size r s i → F.read s' m.root i = F.read s m.root i := by
  let Inv : σ → Prop := fun s₁ => (∃ made, Extends F held m.root s s₁ made) ∧
    (∀ i < 512, huge (F.read s₁ m.root i) = false) ∧
    ∀ i < 512, Kept F m.root virt size r s i → F.read s₁ m.root i = F.read s m.root i
  have hstep : ∀ done level res s₁ s₂ made, Built F held true (fun _ => True) m s₁ → Inv s₁ →
      Turn F held (fun _ => True) m virt phys size r ty done level res s₁ s₂ made → Inv s₂ := by
    rintro done level res s₁ s₂ new hbuilt ⟨⟨made, hext⟩, hflat, hkept⟩ hturn
    have hsize := levelSize_spec hturn.level_le
    have hfits := hturn.fits
    refine ⟨⟨_, hext.trans hturn.change.extends⟩, hturn.entry.flat hflat, fun i hi hkeep => ?_⟩
    rw [← hkept i hi hkeep]
    by_cases hused : i = index (virt + done) 3
    · obtain ⟨hp, hr⟩ := hkeep done (by omega) hused.symm
      rw [← hkept i hi hkeep] at hp
      have hw := (Sound.mk hbuilt hflat).writable hi hp
      subst hused
      obtain hsame | hwide := hturn.entry.widened hp
      · exact hsame
      · rw [hwide, widened_supervisor hp hw hr]
    · exact hturn.entry.beside i hi hused
  have hstart : Inv s := ⟨⟨[], Extends.refl⟩, hm.flat, fun _ _ _ => rfl⟩
  obtain ⟨-, hok, herr⟩ := mapAs_rule_any hL trivial (fun _ _ _ => trivial)
    (P := fun _ => Inv) (Q := fun _ => Inv)
    (fun done level res s₁ s₂ made hbuilt hinv hturn =>
      have hnext := hstep done level res s₁ s₂ made hbuilt hinv hturn
      ⟨fun _ => hnext, fun _ _ => hnext⟩)
    hm.built hstart (fun _ => hstart) h
  have hend : Inv s' := by
    cases res with
    | ok => exact hok rfl
    | error err => exact herr err rfl
  obtain ⟨⟨made, hext⟩, -, hkept⟩ := hend
  exact ⟨made, hext, hkept⟩

theorem Sound.unmap_footprint (hL : F.Lawful held) (hm : Sound F held m s) (v : UInt64) :
    Extends F held m.root s (m.unmap F v s).2 [] ∧
      ∀ i < 512, F.read (m.unmap F v s).2 m.root i = F.read s m.root i := by
  obtain ⟨-, -, hafter⟩ := hm.unmap hL v
  cases hp : leafAt true (F.read s) 4 (rootEntry m.root) v with
  | none =>
    rw [hp] at hafter
    dsimp only at hafter
    rw [hafter]
    exact ⟨Extends.refl, fun _ _ => rfl⟩
  | some p =>
    rw [hp] at hafter
    exact ⟨hafter.1.extends, hafter.2⟩

end

end StarOs.Paging
