import StarOs.Paging.PageSizes

/-! Calls that leave the canonical addresses. The walk reads 48 bits of an address, so a call
over more memory than these can tell apart comes by the same page again, and the last lap
stays. -/

namespace StarOs.Paging

open Library

section

variable {σ : Type} {F : FrameSource σ} {held : σ → Set UInt64} {last : UInt64 → Prop} {s s' : σ}
  {m : Mapper} {virt phys size done v : UInt64} {r : Rights} {ty : MemoryType} {level : ℕ}
  {res : Except MapError Unit} {made : List UInt64}

theorem translate_congr (hm : Built F held true last m s) (hm' : Built F held true last m s')
    (h : leafOf F m v s' = leafOf F m v s) : m.translate F v s' = m.translate F v s := by
  rw [hm'.translate (.inl rfl), hm.translate (.inl rfl)]
  exact congrArg (Option.map (leafTranslation v)) h

/-- Addresses of one small page have one leaf. -/
theorem leafOf_page {u : UInt64} (h : slot v / 4096 = slot u / 4096) :
    leafOf F m v s = leafOf F m u s := by
  have hpage : (levelSize 0).toNat = 4096 := rfl
  have hsame := (@samePage_slot u v 0 (Nat.zero_le 2)).mpr (by rwa [hpage])
  cases hv : leafOf F m v s with
  | some p => exact (leafAt_same hv fun k _ hk => (hsame k (Nat.zero_le k) hk).symm).symm
  | none =>
    cases hu : leafOf F m u s with
    | none => rfl
    | some p =>
      have := leafAt_same (w := v) hu fun k _ hk => hsame k (Nat.zero_le k) hk
      exact absurd (hv.symm.trans this) nofun

/-- No page is larger than those the mapper places. -/
def NoLarger (F : FrameSource σ) (m : Mapper) (s : σ) : Prop :=
  ∀ v p, leafOf F m v s = some p → p.1 ≤ m.largestLevel

theorem stepLevel_le_largest (m : Mapper) (virt phys left : UInt64) :
    m.stepLevel virt phys left ≤ m.largestLevel := by
  unfold Mapper.stepLevel Mapper.largestLevel
  cases m.gibPages <;> simp only [Bool.true_and, Bool.false_and, Bool.false_eq_true, if_false,
    if_true] <;> split_ifs <;> omega

/-- Whatever a call is about and however it ends, pages stay no larger, and what is mapped stays
mapped. -/
theorem mapAs_keeps (hL : F.Lawful held) (hm : Built F held true (fun _ => True) m s)
    (hsize : NoLarger F m s) (h : m.mapAs F virt phys size r ty s = (res, s')) :
    Built F held true (fun _ => True) m s' ∧ NoLarger F m s' ∧
      ∀ v, (leafOf F m v s).isSome → (leafOf F m v s').isSome := by
  have hrule := mapAs_rule_any hL trivial (fun _ _ _ => trivial)
    (P := fun _ s₁ => NoLarger F m s₁ ∧ ∀ v, (leafOf F m v s).isSome → (leafOf F m v s₁).isSome)
    (Q := fun _ s₁ => NoLarger F m s₁ ∧ ∀ v, (leafOf F m v s).isSome → (leafOf F m v s₁).isSome)
    ?_ hm ⟨hsize, fun _ => id⟩ (fun _ => ⟨hsize, fun _ => id⟩) h
  · cases res with
    | ok => exact ⟨hrule.1, hrule.2.1 rfl⟩
    | error err => exact ⟨hrule.1, hrule.2.2 err rfl⟩
  rintro done level out s₁ s₂ made - ⟨hlevel, hkept⟩ hturn
  refine ⟨fun hout => ⟨fun v p hp => ?_, fun v hv => ?_⟩,
    fun err hout => ⟨fun v p hp => ?_, fun v hv => ?_⟩⟩
  · rw [hturn.leaf.1 hout] at hp
    split at hp
    · rw [← Option.some.inj hp]
      exact hturn.largest.trans_le (stepLevel_le_largest m _ _ _)
    · exact hlevel v p hp
  · rw [hturn.leaf.1 hout]
    split
    · rfl
    · exact hkept v hv
  · exact hlevel v p (((hturn.leaf (v := v)).2 err hout).symm.trans hp)
  · rw [hturn.leaf.2 err hout]
    exact hkept v hv

theorem performAll_keeps (hL : F.Lawful held) {cs : List Call}
    (hm : Built F held true (fun _ => True) m s) (hsize : NoLarger F m s)
    (h : Call.performAll F m cs s = (res, s')) :
    Built F held true (fun _ => True) m s' ∧ NoLarger F m s' ∧
      ∀ v, (leafOf F m v s).isSome → (leafOf F m v s').isSome := by
  induction cs generalizing s with
  | nil =>
    obtain rfl := (Prod.ext_iff.mp h).2
    exact ⟨hm, hsize, fun _ => id⟩
  | cons c cs ih =>
    rw [Call.performAll] at h
    split at h
    · next err s₁ hc =>
      obtain rfl := (Prod.ext_iff.mp h).2
      rw [perform_eq] at hc
      exact mapAs_keeps hL hm hsize hc
    · next s₁ hc =>
      rw [perform_eq] at hc
      obtain ⟨hm₁, hsize₁, hkept⟩ := mapAs_keeps hL hm hsize hc
      obtain ⟨hm', hsize', hkept'⟩ := ih hm₁ hsize₁ h
      exact ⟨hm', hsize', fun v hv => hkept' v (hkept v hv)⟩

/-- A new tree has no pages. -/
theorem new_noLarger (hL : F.Lawful held) {gib : Bool} (h : Mapper.new F gib s = (.ok m, s')) :
    NoLarger F m s' := by
  obtain ⟨hm, hnone⟩ := new_built hL h
  intro v p hp
  have hlevel := pageLevel_none hm (hnone v)
  rw [pageLevel_eq, hp] at hlevel
  cases hlevel

/-! ### Laps -/

/-- How far a call that begins at `virt` comes before it comes by `v`. -/
def behind (virt v : UInt64) : ℕ := (slot v + 2 ^ 48 - slot virt) % 2 ^ 48

/-- At offset `q` the first `size` bytes come by the page of `v` for the last time. -/
structure LastLap (m : Mapper) (virt size v q : UInt64) : Prop where
  aligned : q.toNat % m.largestPage.toNat = 0
  here : (q.toNat + v.toNat % m.largestPage.toNat) % 2 ^ 48 = behind virt v
  lt : q.toNat < size.toNat
  last : size.toNat ≤ q.toNat + 2 ^ 48

/-- One more page of size `n` at offset `d` behind `a`, and an address `w`. -/
theorem lap_arith {n a d w : ℕ} (hn : n = 2 ^ 30 ∨ n = 2 ^ 21) (ha : a % n = 0) (hd : d % n = 0) :
    let x := (w % 2 ^ 48 + 2 ^ 48 - a % 2 ^ 48) % 2 ^ 48
    let here := w % 2 ^ 48 / n = (a + d) % 2 ^ 64 % 2 ^ 48 / n
    (here → (d + w % n) % 2 ^ 48 = x) ∧ (¬here → x < d + n → x < d) ∧
      ∀ q, ¬here → q % n = 0 → (q + w % n) % 2 ^ 48 = x → q < d → d ≤ q + 2 ^ 48 →
        d + n ≤ q + 2 ^ 48 := by
  obtain rfl | rfl := hn
  · exact ⟨fun h => by omega, fun h hx => by omega, fun q h h₁ h₂ h₃ h₄ => by omega⟩
  · exact ⟨fun h => by omega, fun h hx => by omega, fun q h h₁ h₂ h₃ h₄ => by omega⟩

theorem largestPage_cases (m : Mapper) :
    m.largestPage.toNat = 2 ^ 30 ∨ m.largestPage.toNat = 2 ^ 21 := by
  rw [largestPage_toNat]
  cases m.gibPages <;> simp

/-- A call from frame zero over whole largest pages, on a tree with no larger ones, fails only
for want of a table, and leaves the last lap. -/
theorem mapAs_wide (hL : F.Lawful held) (hm : Built F held true (fun _ => True) m s)
    (hsize : NoLarger F m s) (hv : virt.toNat % 2 ^ 30 = 0) (hs : size.toNat % 2 ^ 30 = 0)
    (h : m.mapAs F virt 0 size r ty s = (res, s')) :
    (∀ err, res = .error err → err = .outOfFrames) ∧ (res = .ok () → ∀ v,
      (behind virt v < size.toNat → ∃ q, LastLap m virt size v q ∧
        leafOf F m v s' = some (m.largestLevel, leafEntry q r ty m.largestLevel)) ∧
      (size.toNat ≤ behind virt v → leafOf F m v s' = leafOf F m v s)) := by
  have hva := largestPage_mod m hv
  have hsa := largestPage_mod m hs
  have hpage : m.largestPage.toNat = (levelSize m.largestLevel).toNat := rfl
  have hrule := mapAs_rule_any hL trivial (fun _ _ _ => trivial)
    (P := fun done s₁ => done.toNat % m.largestPage.toNat = 0 ∧ NoLarger F m s₁ ∧ ∀ v,
      (behind virt v < done.toNat → ∃ q, LastLap m virt done v q ∧
        leafOf F m v s₁ = some (m.largestLevel, leafEntry q r ty m.largestLevel)) ∧
      (done.toNat ≤ behind virt v → leafOf F m v s₁ = leafOf F m v s))
    (Q := fun err _ => err = .outOfFrames) ?_ hm
    ⟨Nat.zero_mod _, hsize, fun v => ⟨fun hlt => absurd hlt (Nat.not_lt_zero _), fun _ => rfl⟩⟩
    (fun hmis => absurd ⟨by omega, rfl, by omega⟩ hmis) h
  · exact ⟨hrule.2.2, fun hok => (hrule.2.1 hok).2.2⟩
  rintro done level out s₁ s₂ made - ⟨hdone, hlevels, hlaps⟩ hturn
  have hlt := hturn.lt
  have hnext := hturn.next
  have hroom : m.largestPage.toNat ≤ size.toNat - done.toNat := by
    obtain hn | hn := largestPage_cases m <;> rw [hn] at hsa hdone ⊢ <;> omega
  have hpos : (virt + done).toNat % m.largestPage.toNat = 0 := by
    rw [UInt64.toNat_add]
    obtain hn | hn := largestPage_cases m <;> rw [hn] at hva hdone ⊢ <;> omega
  obtain rfl : level = m.largestLevel := by
    rw [hturn.largest]
    refine stepLevel_eq_largest hpos (by rw [UInt64.zero_add]; exact hdone) ?_
    rw [UInt64.toNat_sub_of_le _ _ (UInt64.le_iff_toNat_le.mpr hlt.le)]
    exact hroom
  rw [← hpage] at hnext
  refine ⟨fun hout => ⟨?_, fun v p hp => ?_, fun v => ?_⟩, fun err hout => ?_⟩
  · rw [hnext, Nat.add_mod_right]
    exact hdone
  · rw [hturn.leaf.1 hout] at hp
    split at hp
    · rw [← Option.some.inj hp]
    · exact hlevels v p hp
  · obtain ⟨hhit, hfirst, hold⟩ := @lap_arith m.largestPage.toNat virt.toNat done.toNat v.toNat
      (largestPage_cases m) hva hdone
    rw [hturn.leaf.1 hout, hnext]
    rw [← hpage, UInt64.zero_add]
    unfold slot
    rw [UInt64.toNat_add]
    have hx : behind virt v = (v.toNat % 2 ^ 48 + 2 ^ 48 - virt.toNat % 2 ^ 48) % 2 ^ 48 := rfl
    have hwide := largestPage_cases m
    by_cases hhere : v.toNat % 2 ^ 48 / m.largestPage.toNat =
        (virt.toNat + done.toNat) % 2 ^ 64 % 2 ^ 48 / m.largestPage.toNat
    · rw [if_pos hhere]
      have hat := hhit hhere
      refine ⟨fun _ => ⟨done, ⟨hdone, hat, ?_, ?_⟩, rfl⟩, fun hle => ?_⟩
      · rw [hnext]
        omega
      · rw [hnext]
        omega
      · rw [hx, ← hat] at hle
        have hmod := Nat.mod_lt v.toNat (show 0 < m.largestPage.toNat by omega)
        have hreduce := Nat.mod_le (done.toNat + v.toNat % m.largestPage.toNat) (2 ^ 48)
        omega
    · rw [if_neg hhere]
      refine ⟨fun hlt' => ?_, fun hle => (hlaps v).2 (by omega)⟩
      obtain ⟨q, hq, hleaf⟩ := (hlaps v).1 (hfirst hhere hlt')
      refine ⟨q, ⟨hq.aligned, hq.here, ?_, ?_⟩, hleaf⟩
      · rw [hnext]
        have := hq.lt
        omega
      · rw [hnext]
        exact hold q.toNat hhere hq.aligned hq.here hq.lt hq.last
  · -- no page is in the way of a largest one
    have hfail := hturn.failed err hout
    cases err with
    | misaligned => exact absurd hfail not_false
    | outOfFrames => rfl
    | largePageCollision =>
      obtain ⟨p, hp, hlarger⟩ := hfail
      have := hlevels _ p hp
      omega

/-- What a leaf answers, also one that keeps not all of its address. -/
theorem translate_leafEntry (hm : Built F held true last m s) {q : UInt64} (hl : level ≤ 2)
    (hq : q.toNat % (levelSize level).toNat = 0) (hr : r.exec = false)
    (hleaf : leafOf F m v s = some (level, leafEntry q r ty level)) :
    ∃ t, m.translate F v s = some t ∧
      t.phys.toNat = q.toNat % 2 ^ 52 + v.toNat % (levelSize level).toNat ∧ t.rights = r := by
  have hpage : q.toNat % 4096 = 0 := Nat.mod_eq_zero_of_dvd
    ((Nat.dvd_of_mod_eq_zero (levelSize_spec hl).1).trans (Nat.dvd_of_mod_eq_zero hq))
  obtain ⟨-, -, -, hrights, haddr⟩ := leafEntry_low r ty level hpage
  refine ⟨leafTranslation v (level, leafEntry q r ty level), ?_, ?_, hrights hr⟩
  · rw [hm.translate (.inl rfl), show leafAt _ _ _ _ _ = _ from hleaf]
    rfl
  · have hround := (page_parts (q &&& pteAddrMask) level).2
    have hoff := (page_parts v level).1
    rw [toNat_addr] at hround
    have hlevel := levelSize_toNat level
    rw [Nat.min_eq_left hl] at hlevel
    simp only [leafTranslation, haddr]
    rw [UInt64.toNat_add, hround, hoff]
    have hlt := q.toNat_lt
    rw [hlevel] at hq ⊢
    interval_cases level <;> omega

/-- Where the addresses are canonical, a range and its laps are the same. -/
theorem behind_lt_iff (hr : InRange virt phys size) (hv : Canonical v) :
    behind virt v < size.toNat ↔ virt.toNat ≤ v.toNat ∧ v.toNat < virt.toNat + size.toNat := by
  have hhalf := hr.half
  have hlt := v.toNat_lt
  have hlt' := virt.toNat_lt
  unfold Canonical at hv
  unfold behind slot
  omega

/-! ### One small page -/

theorem levelAt_small {c : Call} (hsize : c.size.toNat ≤ 4096) (gib : Bool) (v : UInt64) :
    c.levelAt gib v = 0 := by
  have hgib : ¬c.fitsPage size1G v.toNat := by
    rw [Call.fitsPage_size1G]
    omega
  have htwo : ¬c.fitsPage size2M v.toNat := by
    rw [Call.fitsPage_size2M]
    omega
  simp [Call.levelAt, hgib, htwo]

theorem behind_lt_small (hv : virt.toNat % 4096 = 0)
    (hsize : size.toNat = 0 ∨ size.toNat = 4096) :
    behind virt v < size.toNat ↔ size.toNat ≠ 0 ∧ slot v / 4096 = slot virt / 4096 := by
  unfold behind slot
  omega

/-- A call for one small page, wherever it is, or for none. -/
theorem perform_small {c : Call} (hL : F.Lawful held) (hm : Built F held true (fun _ => True) m s)
    (hv : c.virt.toNat % 4096 = 0) (hp : c.phys.toNat % 4096 = 0)
    (hsize : c.size.toNat = 0 ∨ c.size.toNat = 4096) (h : c.perform F m s = (res, s')) :
    Built F held true (fun _ => True) m s' ∧
    (res = .ok () → c.Clear F m s ∧ ∀ v, leafOf F m v s' =
      if c.size.toNat ≠ 0 ∧ slot v / 4096 = slot c.virt / 4096 then
        some (0, leafEntry c.phys c.rights c.memoryType 0)
      else leafOf F m v s) ∧
    ∀ err, res = .error err → err = .outOfFrames ∨ ¬c.Clear F m s := by
  have hzero : (0 : UInt64).toNat = 0 := rfl
  have hlevel := levelAt_small (c := c) (by omega) m.gibPages
  have hsame : ∀ v, c.Covers v → slot v / 4096 = slot c.virt / 4096 := by
    rintro v ⟨hlo, hhi⟩
    unfold slot
    omega
  rw [perform_eq] at h
  have hrule := mapAs_rule_any hL trivial (fun _ _ _ => trivial)
    (P := fun done s₁ => (done.toNat = 0 → ∀ v, leafOf F m v s₁ = leafOf F m v s) ∧
      (done.toNat = 4096 → c.Clear F m s ∧ ∀ v, leafOf F m v s₁ =
        if slot v / 4096 = slot c.virt / 4096 then
          some (0, leafEntry c.phys c.rights c.memoryType 0)
        else leafOf F m v s))
    (Q := fun err _ => err = .outOfFrames ∨ ¬c.Clear F m s) ?_ hm
    ⟨fun _ _ => rfl, fun hfull => absurd hfull (by omega)⟩
    (fun hmis => absurd ⟨hv, hp, by omega⟩ hmis) h
  · refine ⟨hrule.1, fun hok => ?_, hrule.2.2⟩
    obtain ⟨hnone, hpage⟩ := hrule.2.1 hok
    obtain hs | hs := hsize
    · refine ⟨fun v hcov => absurd hcov.2 (by have := hcov.1; omega), fun v => ?_⟩
      rw [if_neg (by omega)]
      exact hnone hs v
    · obtain ⟨hclear, hleaf⟩ := hpage hs
      refine ⟨hclear, fun v => ?_⟩
      simp [hleaf v, hs]
  rintro done level out s₁ s₂ made - ⟨hfirst, -⟩ hturn
  have hfit := hturn.fits
  have hnext := hturn.next
  obtain ⟨-, hpos⟩ := levelSize_spec hturn.level_le
  obtain rfl : done = 0 := by
    refine UInt64.toNat_inj.mp ?_
    omega
  obtain rfl : level = 0 := by
    by_contra hne
    have hbig : 2 ^ 21 ≤ (levelSize level).toNat := by
      rw [levelSize_toNat]
      exact Nat.pow_le_pow_right (by omega) (by omega)
    omega
  have hpage : (levelSize 0).toNat = 4096 := rfl
  refine ⟨fun hout => ⟨fun hnil => absurd hnil (by omega),
    fun _ => ⟨fun v hcov l hl => ?_, fun v => ?_⟩⟩,
    fun err hout => ?_⟩
  · obtain ⟨p, hp, rfl⟩ := Option.map_eq_some_iff.mp hl
    have hat := (@samePage_slot c.virt v 0 hturn.level_le).mpr (hsame v hcov)
    rw [hlevel]
    refine hturn.clear hout p ?_
    rw [UInt64.add_zero, show leafAt _ _ _ _ _ = leafOf F m c.virt s₁ from rfl, hfirst hzero]
    exact leafAt_same hp fun k _ hk => (hat k (Nat.zero_le k) hk).symm
  · rw [hturn.leaf.1 hout, hpage, UInt64.add_zero, UInt64.add_zero, hfirst hzero]
  · have hfail := hturn.failed err hout
    cases err with
    | misaligned => exact absurd hfail not_false
    | outOfFrames => exact .inl rfl
    | largePageCollision =>
      obtain ⟨p, hp, hlarger⟩ := hfail
      refine .inr fun hclear => ?_
      rw [UInt64.add_zero, show leafAt _ _ _ _ _ = leafOf F m c.virt s₁ from rfl,
        hfirst hzero] at hp
      have hle := hclear c.virt ⟨le_rfl, by omega⟩ p.1 (by rw [pageLevel_eq, hp]; rfl)
      rw [hlevel] at hle
      omega

/-- Two such calls for different pages, given the tables they ask for. -/
theorem performAll_small_iff {c d : Call} (hL : F.Lawful held)
    (hm : Built F held true (fun _ => True) m s)
    (hsmall : ∀ b ∈ [c, d], b.virt.toNat % 4096 = 0 ∧ b.phys.toNat % 4096 = 0 ∧
      (b.size.toNat = 0 ∨ b.size.toNat = 4096))
    (hapart : slot d.virt / 4096 ≠ slot c.virt / 4096)
    (h : Call.performAll F m [c, d] s = (res, s')) (hres : res ≠ .error .outOfFrames) :
    res = .ok () ↔ ∀ b ∈ [c, d], b.Clear F m s := by
  obtain ⟨hv, hp, hs⟩ := hsmall c (by simp)
  obtain ⟨hv', hp', hs'⟩ := hsmall d (by simp)
  simp only [List.forall_mem_cons, List.not_mem_nil, IsEmpty.forall_iff, implies_true, and_true]
  rw [Call.performAll] at h
  split at h
  · next err s₁ hone =>
    obtain ⟨rfl, rfl⟩ := Prod.ext_iff.mp h
    refine iff_of_false (by simp) fun hclear => ?_
    obtain rfl | hmet := (perform_small hL hm hv hp hs hone).2.2 err rfl
    · exact hres rfl
    · exact hmet hclear.1
  next s₁ hone =>
  obtain ⟨hm₁, hgood, -⟩ := perform_small hL hm hv hp hs hone
  obtain ⟨hclear, hleaf⟩ := hgood rfl
  have hsame : d.Clear F m s₁ ↔ d.Clear F m s := by
    refine forall_congr' fun v => forall_congr' fun hcov => ?_
    rw [pageLevel_eq, pageLevel_eq, hleaf, if_neg]
    obtain ⟨hlo, hhi⟩ := hcov
    unfold slot at hapart ⊢
    omega
  rw [Call.performAll] at h
  split at h
  · next err s₂ htwo =>
    obtain ⟨rfl, rfl⟩ := Prod.ext_iff.mp h
    refine iff_of_false (by simp) fun hall => ?_
    obtain rfl | hmet := (perform_small hL hm₁ hv' hp' hs' htwo).2.2 err rfl
    · exact hres rfl
    · exact hmet (hsame.mpr hall.2)
  · next s₂ htwo =>
    obtain rfl : .ok () = res := (Prod.ext_iff.mp h).1
    obtain ⟨hclear', -⟩ := (perform_small hL hm₁ hv' hp' hs' htwo).2.1 rfl
    exact iff_of_true rfl ⟨hclear, hsame.mp hclear'⟩

end

end StarOs.Paging
