import StarOs.Paging.Requests
import StarOs.Paging.Unmap

/-! What the calls do to any tree of this crate, however they end: a failing `map` leaves the
front of its range mapped and every other address as it was, and `unmap` removes one page,
which can be mapped again. -/

namespace StarOs.Paging

open Library

section

variable {σ : Type} {F : FrameSource σ} {held : σ → Set UInt64} {s s' : σ} {root : UInt64}
  {m : Mapper} {last : UInt64 → Prop}

/-- The leaf the walk of `v` ends at. -/
def leafOf (F : FrameSource σ) (m : Mapper) (v : UInt64) (s : σ) : Option (ℕ × UInt64) :=
  leafAt true (F.read s) 4 (rootEntry m.root) v

/-- The level of the page `v` is on, if it is mapped. -/
def pageLevel (F : FrameSource σ) (m : Mapper) (v : UInt64) (s : σ) : Option ℕ :=
  (leafAt true (F.read s) 4 (rootEntry m.root) v).map Prod.fst

theorem pageLevel_eq {v : UInt64} : pageLevel F m v s = (leafOf F m v s).map Prod.fst := rfl

section

variable {virt phys size done v : UInt64} {r : Rights} {ty : MemoryType} {level : ℕ}
  {res : Except MapError Unit} {made : List UInt64}

/-- What one turn does to the leaf of any address. -/
theorem Turn.leaf (h : Turn F held last m virt phys size r ty done level res s s' made) :
    (res = .ok () → leafOf F m v s' =
      if slot v / (levelSize level).toNat = slot (virt + done) / (levelSize level).toNat then
        some (level, leafEntry (phys + done) r ty level)
      else leafOf F m v s) ∧
    ∀ err, res = .error err → leafOf F m v s' = leafOf F m v s := by
  have hpage := @samePage_slot (virt + done) v level h.level_le
  constructor
  · rintro rfl
    have hphys : (phys + done).toNat % 4096 = 0 := by
      obtain ⟨hsize, -⟩ := levelSize_spec h.level_le
      exact Nat.mod_eq_zero_of_dvd
        ((Nat.dvd_of_mod_eq_zero hsize).trans (Nat.dvd_of_mod_eq_zero h.phys_aligned))
    unfold leafOf
    split
    · next hin =>
      rw [h.change.hit _ rfl v (.inl rfl) (hpage.mpr hin),
        if_pos (leafEntry_low r ty level hphys).1]
    · next hout => exact h.change.miss v (.inl rfl) (.inr (mt hpage.mp hout))
  · rintro err rfl
    exact h.change.miss v (.inl rfl) (.inl rfl)

/-- One turn of a call puts one page of its level in place, or leaves every page as it is. -/
theorem Turn.pages (hr : InRange virt phys size)
    (h : Turn F held last m virt phys size r ty done level res s s' made) (hv : Canonical v) :
    (res = .ok () → pageLevel F m v s' =
      if virt.toNat + done.toNat ≤ v.toNat ∧
        v.toNat < virt.toNat + (done + levelSize level).toNat then some level
      else pageLevel F m v s) ∧
    ∀ err, res = .error err → pageLevel F m v s' = pageLevel F m v s := by
  obtain ⟨hvd, -, -, hcanon⟩ := hr.offset h.lt
  have hdone := h.next
  have hpage := (samePage_slot h.level_le).symm.trans
    (samePage_range h.level_le hcanon hv h.virt_aligned)
  rw [hvd] at hpage
  refine ⟨fun hout => ?_, fun err hout => congrArg (Option.map Prod.fst) (h.leaf.2 err hout)⟩
  rw [pageLevel_eq, h.leaf.1 hout, hdone, ← Nat.add_assoc]
  by_cases hin : slot v / (levelSize level).toNat = slot (virt + done) / (levelSize level).toNat
  · rw [if_pos hin, if_pos (hpage.mp hin)]
    rfl
  · rw [if_neg hin, if_neg (mt hpage.mpr hin)]
    rfl

end

theorem pageLevel_none (hm : Built F held true last m s) {v : UInt64}
    (h : m.translate F v s = none) : pageLevel F m v s = none := by
  rw [hm.translate (.inl rfl), Option.map_eq_none_iff] at h
  rw [pageLevel, h]
  rfl

/-- A call on a range where nothing is mapped fails only when the source has no table left. -/
theorem mapAs_unmapped (hL : F.Lawful held) (hm : Built F held true (fun _ => True) m s)
    {virt phys size : UInt64} {r : Rights} {ty : MemoryType} (hr : InRange virt phys size)
    (hfree : ∀ v, Canonical v → virt.toNat ≤ v.toNat → v.toNat < virt.toNat + size.toNat →
      m.translate F v s = none) {err : MapError}
    (h : m.mapAs F virt phys size r ty s = (.error err, s')) : err = .outOfFrames := by
  refine (mapAs_rule hL trivial hr (fun _ _ _ => trivial)
    (P := fun done s₁ => ∀ v, Canonical v → virt.toNat + done.toNat ≤ v.toNat →
      pageLevel F m v s₁ = pageLevel F m v s)
    (Q := fun err _ => err = .outOfFrames) ?_ hm (fun _ _ _ => rfl) h).2.2 err rfl
  rintro done level out s₁ s₂ made hm₁ hsame hturn
  refine ⟨fun hout v hv hle => ?_, fun err hout => ?_⟩
  · have hdone := hturn.next
    rw [(hturn.pages hr hv).1 hout, if_neg (by omega), hsame v hv (by omega)]
  · have hfail := hturn.failed err hout
    cases err with
    | misaligned => exact absurd hfail not_false
    | outOfFrames => rfl
    | largePageCollision =>
      -- the page in the way would be one the range started with
      obtain ⟨p, hp, -⟩ := hfail
      have hlt := hturn.lt
      obtain ⟨hvd, -, -, hcanon⟩ := hr.offset hlt
      have hmet := hsame _ hcanon (by omega)
      rw [pageLevel_none hm (hfree _ hcanon (by omega) (by omega)), pageLevel, hp] at hmet
      cases hmet

/-- A call that fails on a tree of this crate changes nothing when its arguments are not
aligned; otherwise the front of the range is mapped as asked, and every other address
translates as before. -/
theorem failing_map_leaves_front (hL : F.Lawful held) (gib : Bool) (hm : Made F held root s)
    (c : Call)
    (hhalf : c.virt.toNat + c.size.toNat ≤ 2 ^ 47 ∨
      2 ^ 64 - 2 ^ 47 ≤ c.virt.toNat ∧ c.virt.toNat + c.size.toNat ≤ 2 ^ 64)
    (hphys : c.phys.toNat + c.size.toNat ≤ 2 ^ 52) (err : MapError)
    (h : c.perform F ⟨root, gib⟩ s = (.error err, s')) :
    (err = .misaligned → s' = s) ∧
      (err ≠ .misaligned → ∃ k : UInt64, k.toNat < c.size.toNat ∧ ∀ v, Canonical v →
        (c.virt.toNat ≤ v.toNat ∧ v.toNat < c.virt.toNat + k.toNat →
          (Mapper.translate F ⟨root, gib⟩ v s').map Translation.answer = some (c.answer v)) ∧
        (¬(c.virt.toNat ≤ v.toNat ∧ v.toNat < c.virt.toNat + k.toNat) →
          Mapper.translate F ⟨root, gib⟩ v s' = Mapper.translate F ⟨root, gib⟩ v s)) := by
  rw [perform_eq] at h
  by_cases haligned : c.virt.toNat % 4096 = 0 ∧ c.phys.toNat % 4096 = 0 ∧ c.size.toNat % 4096 = 0
  · obtain ⟨hva, hpa, hsa⟩ := haligned
    obtain ⟨-, -, herr⟩ := mapAs_mapped hL (hm.sound hL gib).built ⟨hva, hpa, hsa, hhalf, hphys⟩ h
    obtain ⟨hne, hfront⟩ := herr err rfl
    exact ⟨fun heq => absurd heq hne, fun _ => hfront⟩
  · rw [mapAs_eq, if_neg haligned] at h
    obtain ⟨herr, rfl⟩ := Prod.ext_iff.mp h
    exact ⟨fun _ => rfl, fun hne => absurd (Except.error.inj herr).symm hne⟩

/-- `unmap` returns what `translate` found. The page it found answers nothing afterwards and
every other address answers as before; where it found none the memory is untouched. A call that
maps the page again does so when each of its requests for a table is answered, and gives up when
one is refused. -/
theorem unmap_removes_page (hL : F.Lawful held) (gib : Bool) (hm : Made F held root s) (v : UInt64)
    (hv : Canonical v) :
    let m : Mapper := ⟨root, gib⟩
    let s' := (m.unmap F v s).2
    (m.unmap F v s).1 = m.translate F v s ∧ (m.translate F v s = none → s' = s) ∧
      ∀ t, m.translate F v s = some t →
        (∀ w, Canonical w → m.translate F w s' =
          if w.toNat / t.pageSize.toNat = v.toNat / t.pageSize.toNat then none
          else m.translate F w s) ∧
        ∀ c : Call, c.virt = v &&& ~~~(t.pageSize - 1) → c.size = t.pageSize →
          c.phys.toNat % 4096 = 0 → c.phys.toNat + c.size.toNat ≤ 2 ^ 52 →
          ∀ res s'', c.perform F m s' = (res, s'') →
            (none ∈ tableAnswers (c.perform F.noted m) s' → res = .error .outOfFrames) ∧
            (none ∉ tableAnswers (c.perform F.noted m) s' → res = .ok () ∧ ∀ w, Canonical w →
              (c.Covers w → (m.translate F w s'').map Translation.answer = some (c.answer w)) ∧
              (¬c.Covers w → m.translate F w s'' = m.translate F w s')) := by
  intro m s'
  have hsound := hm.sound hL gib
  obtain ⟨hres, hsound', hafter⟩ := hsound.unmap hL v
  have htrans := hsound.built.translate (v := v) (.inl rfl)
  cases hp : leafAt true (F.read s) 4 (rootEntry root) v with
  | none =>
    rw [hp] at hafter htrans
    exact ⟨hres, fun _ => hafter, fun t ht => absurd (htrans.symm.trans ht) (by simp)⟩
  | some p =>
    rw [hp] at hafter htrans
    refine ⟨hres, fun hnone => absurd (htrans.symm.trans hnone) (by simp), fun t ht => ?_⟩
    obtain rfl : leafTranslation v p = t := Option.some.inj (htrans.symm.trans ht)
    have hlevel := hsound.level_le hp
    have hblock : ∀ w, Canonical w → m.translate F w s' =
        if w.toNat / (levelSize p.1).toNat = v.toNat / (levelSize p.1).toNat then none
        else m.translate F w s := by
      intro w hw
      rw [hsound'.built.translate (.inl rfl)]
      split
      · next hsame =>
        rw [hafter.1.hit 0 rfl w (.inl rfl) ((samePage_iff hlevel hv hw).mpr hsame)]
        rfl
      · next hdiff =>
        rw [hafter.1.miss w (.inl rfl) (.inr (mt (samePage_iff hlevel hv hw).mp hdiff)),
          hsound.built.translate (.inl rfl)]
    refine ⟨hblock, fun c hvirt hsize hpa hpl res s'' hcall => ?_⟩
    have hanswered := (perform_noted F m [] s' c).answered
    rw [hcall] at hanswered
    rw [hanswered]
    rw [perform_eq] at hcall
    have hbase : c.virt.toNat = v.toNat / (levelSize p.1).toNat * (levelSize p.1).toNat := by
      rw [hvirt]
      exact (page_parts v p.1).2
    have hsz : c.size.toNat = (levelSize p.1).toNat := by rw [hsize]; rfl
    have hpow : (levelSize p.1).toNat = 2 ^ (12 + 9 * p.1) := by
      rw [levelSize_toNat, Nat.min_eq_left hlevel]
    have hr : InRange c.virt c.phys c.size := by
      have hvlt := v.toNat_lt
      unfold Canonical at hv
      constructor
      · rw [hbase, hpow]
        interval_cases p.1 <;> omega
      · exact hpa
      · rw [hsz]
        exact (levelSize_spec hlevel).1
      · rw [hsz, hbase, hpow]
        interval_cases p.1 <;> omega
      · exact hpl
    refine ⟨id, fun hne => ?_⟩
    cases res with
    | ok =>
      obtain ⟨-, hok, -⟩ := mapAs_mapped hL hsound'.built hr hcall
      exact ⟨rfl, fun w hw => hok rfl w hw⟩
    | error err =>
      -- nothing is mapped on the page now, so only a refused request stops the call
      refine absurd (congrArg Except.error (mapAs_unmapped hL hsound'.built hr ?_ hcall)) hne
      intro w hw hlo hhi
      rw [hblock w hw, if_pos]
      rw [hbase, hsz] at *
      have hpos := (levelSize_spec hlevel).2
      rw [Nat.div_eq_iff (by omega)]
      omega

end

/-- A mapper of a new tree with one page of two megabytes in it. -/
def onePage : FakeMemory :=
  let m : Mapper := ⟨0x100000000, false⟩
  (Call.perform FakeMemory.source m ⟨0x200000, 0x40000000, 0x200000, Rights.rw, .normal⟩
    (Mapper.new FakeMemory.source false .empty).2).2

theorem onePage_made : Made FakeMemory.source FakeMemory.held 0x100000000 onePage := by
  have hnew : Made FakeMemory.source FakeMemory.held 0x100000000
      (Mapper.new FakeMemory.source false .empty).2 :=
    .new (Prod.ext (rfl : (Mapper.new FakeMemory.source false .empty).1 = .ok ⟨_, false⟩) rfl)
  rw [onePage, perform_eq]
  exact .map hnew Prod.mk.eta.symm

/-- Two small pages, of which the second is where the large one is. -/
theorem failing_map_leaves_front_collision :
    let m : Mapper := ⟨0x100000000, false⟩
    let c : Call := ⟨0x1FF000, 0x8000, 0x2000, Rights.rw.toUser, .normal⟩
    ∃ k : UInt64, k.toNat < c.size.toNat ∧ ∀ v, Canonical v →
      (c.virt.toNat ≤ v.toNat ∧ v.toNat < c.virt.toNat + k.toNat →
        (m.translate FakeMemory.source v (c.perform FakeMemory.source m onePage).2).map
          Translation.answer = some (c.answer v)) ∧
      (¬(c.virt.toNat ≤ v.toNat ∧ v.toNat < c.virt.toNat + k.toNat) →
        m.translate FakeMemory.source v (c.perform FakeMemory.source m onePage).2 =
          m.translate FakeMemory.source v onePage) := by
  intro m c
  have herr : (c.perform FakeMemory.source m onePage).1 = .error .largePageCollision := by
    decide +kernel
  exact (failing_map_leaves_front FakeMemory.lawful false onePage_made c (by decide) (by decide)
    .largePageCollision (Prod.ext herr rfl)).2 (by decide)

/-- Two megabytes for the page that was unmapped, at another frame. -/
def remap : Call := ⟨0x200000, 0x80000000, 0x200000, Rights.rw.toUser, .normal⟩

/-- The large page goes, and another takes its place. -/
theorem unmap_removes_page_large :
    let m : Mapper := ⟨0x100000000, false⟩
    let s := (m.unmap FakeMemory.source 0x201234 onePage).2
    (m.unmap FakeMemory.source 0x201234 onePage).1 =
      some ⟨0x40001234, Rights.rw, .normal, size2M⟩ ∧
    m.translate FakeMemory.source 0x3FFFFF s = none ∧
    (remap.perform FakeMemory.source m s).1 = .ok () ∧
    (m.translate FakeMemory.source 0x3FFFFF (remap.perform FakeMemory.source m s).2).map
      Translation.answer = some (0x801FFFFF, Rights.rw.toUser, .normal) ∧
    m.translate FakeMemory.source 0x400000 (remap.perform FakeMemory.source m s).2 =
      m.translate FakeMemory.source 0x400000 s := by
  intro m s
  obtain ⟨hres, -, hpage⟩ := unmap_removes_page FakeMemory.lawful false onePage_made 0x201234
    (by unfold Canonical; decide)
  have htrans : m.translate FakeMemory.source 0x201234 onePage =
      some ⟨0x40001234, Rights.rw, .normal, size2M⟩ := by decide +kernel
  obtain ⟨hblock, hagain⟩ := hpage _ htrans
  have hlast : Canonical 0x3FFFFF := by unfold Canonical; decide
  have hbeyond : Canonical 0x400000 := by unfold Canonical; decide
  have hanswered : none ∉ tableAnswers (remap.perform FakeMemory.source.noted m) s := by
    decide +kernel
  obtain ⟨hok, hmapped⟩ := (hagain remap (by decide) rfl (by decide) (by decide) _ _
    Prod.mk.eta.symm).2 hanswered
  refine ⟨hres.trans htrans, ?_, hok, ?_, (hmapped 0x400000 hbeyond).2 (by decide)⟩
  · rw [hblock 0x3FFFFF hlast, if_pos (by decide)]
  · rw [(hmapped 0x3FFFFF hlast).1 (by decide)]
    decide

end StarOs.Paging
