import StarOs.Paging.Outcomes

/-! The pages a call uses and the pages it meets. The loop of `map_as` maps an address by the
largest aligned page around it that lies in the range, and a call succeeds, given the tables it
asks for, exactly when no page it meets is larger than the one it would place there. -/

namespace StarOs.Paging

open Library

/-- The level of the largest page a mapper places. -/
def Mapper.largestLevel (m : Mapper) : ℕ := if m.gibPages then 2 else 1

/-- The size of that page. -/
def Mapper.largestPage (m : Mapper) : UInt64 := levelSize m.largestLevel

namespace Call

/-- The aligned page of `size` bytes around `v` lies in the range, and is mapped to one. -/
def fitsPage (c : Call) (size : UInt64) (v : ℕ) : Bool :=
  let first := v / size.toNat * size.toNat
  decide (c.virt.toNat ≤ first) && decide (first + size.toNat ≤ c.virt.toNat + c.size.toNat) &&
    decide (c.virt.toNat % size.toNat = c.phys.toNat % size.toNat)

/-- The level of the page by which a call maps `v`. -/
def levelAt (gibPages : Bool) (c : Call) (v : UInt64) : ℕ :=
  if gibPages && c.fitsPage size1G v.toNat then 2 else if c.fitsPage size2M v.toNat then 1 else 0

/-- Where both calls map, the later one uses no smaller page. -/
def FitsOver (gibPages : Bool) (c d : Call) : Prop :=
  ∀ v, d.Covers v → c.Covers v → d.levelAt gibPages v ≤ c.levelAt gibPages v

theorem fitsPage_size1G {c : Call} {v : ℕ} : c.fitsPage size1G v ↔
    c.virt.toNat ≤ v / 2 ^ 30 * 2 ^ 30 ∧
      v / 2 ^ 30 * 2 ^ 30 + 2 ^ 30 ≤ c.virt.toNat + c.size.toNat ∧
        c.virt.toNat % 2 ^ 30 = c.phys.toNat % 2 ^ 30 := by
  simp only [fitsPage, Bool.and_eq_true, decide_eq_true_eq, and_assoc]
  exact Iff.rfl

theorem fitsPage_size2M {c : Call} {v : ℕ} : c.fitsPage size2M v ↔
    c.virt.toNat ≤ v / 2 ^ 21 * 2 ^ 21 ∧
      v / 2 ^ 21 * 2 ^ 21 + 2 ^ 21 ≤ c.virt.toNat + c.size.toNat ∧
        c.virt.toNat % 2 ^ 21 = c.phys.toNat % 2 ^ 21 := by
  simp only [fitsPage, Bool.and_eq_true, decide_eq_true_eq, and_assoc]
  exact Iff.rfl

end Call

theorem fits_size1G {virt phys left : UInt64} : fits virt phys left size1G ↔
    virt.toNat % 2 ^ 30 = 0 ∧ phys.toNat % 2 ^ 30 = 0 ∧ 2 ^ 30 ≤ left.toNat := by
  simp only [fits, Bool.and_eq_true, isMultipleOf_iff, decide_eq_true_eq, UInt64.le_iff_toNat_le,
    and_assoc]
  exact Iff.rfl

theorem fits_size2M {virt phys left : UInt64} : fits virt phys left size2M ↔
    virt.toNat % 2 ^ 21 = 0 ∧ phys.toNat % 2 ^ 21 = 0 ∧ 2 ^ 21 ≤ left.toNat := by
  simp only [fits, Bool.and_eq_true, isMultipleOf_iff, decide_eq_true_eq, UInt64.le_iff_toNat_le,
    and_assoc]
  exact Iff.rfl

section

variable {m : Mapper} {virt phys left : UInt64}

theorem largestPage_toNat (m : Mapper) :
    m.largestPage.toNat = if m.gibPages then 2 ^ 30 else 2 ^ 21 := by
  unfold Mapper.largestPage Mapper.largestLevel
  cases m.gibPages <;> rfl

theorem largestPage_mod (m : Mapper) {n : ℕ} (h : n % 2 ^ 30 = 0) :
    n % m.largestPage.toNat = 0 := by
  rw [largestPage_toNat]
  split <;> omega

theorem largestLevel_le (m : Mapper) : m.largestLevel ≤ 2 := by
  unfold Mapper.largestLevel
  split <;> omega

theorem stepLevel_eq_largest (hv : virt.toNat % m.largestPage.toNat = 0)
    (hp : phys.toNat % m.largestPage.toNat = 0) (hl : m.largestPage.toNat ≤ left.toNat) :
    m.stepLevel virt phys left = m.largestLevel := by
  have hfits : fits virt phys left m.largestPage = true := by
    simp [fits, isMultipleOf_iff.mpr hv, isMultipleOf_iff.mpr hp, UInt64.le_iff_toNat_le, hl]
  unfold Mapper.largestPage Mapper.largestLevel at hfits
  unfold Mapper.stepLevel Mapper.largestLevel
  cases hg : m.gibPages with
  | true =>
    simp only [hg, if_true] at hfits
    simp [show fits virt phys left size1G = true from hfits]
  | false =>
    simp only [hg, Bool.false_eq_true, if_false] at hfits
    simp [show fits virt phys left size2M = true from hfits]

end

/-- Addresses on one page are on one larger page. -/
theorem div_eq_of_page {x v a b : ℕ} (hab : a ≤ b) (hx : x % 2 ^ a = 0) (hlo : x ≤ v)
    (hhi : v < x + 2 ^ a) : v / 2 ^ b = x / 2 ^ b := by
  have hpos : 0 < 2 ^ a := Nat.two_pow_pos a
  obtain ⟨q, rfl⟩ := Nat.dvd_of_mod_eq_zero hx
  have hsame : v / 2 ^ a = 2 ^ a * q / 2 ^ a := by
    rw [Nat.mul_div_cancel_left q hpos, Nat.mul_comm] at *
    exact Nat.div_eq_of_lt_le hlo (by rwa [Nat.succ_mul])
  rw [show 2 ^ b = 2 ^ a * 2 ^ (b - a) by rw [← Nat.pow_add]; congr 1; omega,
    ← Nat.div_div_eq_div_mul, ← Nat.div_div_eq_div_mul, hsame]

/-- The page behind one is on the same larger page, unless a larger page begins there. -/
theorem div_next_of_page {x a b : ℕ} (hab : a ≤ b) (hx : x % 2 ^ a = 0)
    (hne : (x + 2 ^ a) % 2 ^ b ≠ 0) : (x + 2 ^ a) / 2 ^ b = x / 2 ^ b := by
  have hpos : 0 < 2 ^ a := Nat.two_pow_pos a
  have hb : 2 ^ b = 2 ^ a * 2 ^ (b - a) := by
    rw [← Nat.pow_add]
    congr 1
    omega
  obtain ⟨q, rfl⟩ := Nat.dvd_of_mod_eq_zero hx
  rw [hb, ← Nat.mul_succ, Nat.mul_mod_mul_left] at hne
  have hne : (q + 1) % 2 ^ (b - a) ≠ 0 := fun h =>
    hne (by rw [Nat.succ_eq_add_one, h, Nat.mul_zero])
  rw [hb, ← Nat.mul_succ, Nat.mul_div_mul_left _ _ hpos, Nat.mul_div_mul_left _ _ hpos]
  exact Nat.succ_div_of_not_dvd fun h => hne (Nat.mod_eq_zero_of_dvd h)

section

variable {c : Call} {m : Mapper} {done v : UInt64}

/-- The loop of a call has come to `done`, where no page that fits is cut in two. -/
structure Call.Comes (c : Call) (m : Mapper) (done : UInt64) : Prop where
  aligned : done.toNat % 4096 = 0
  gib : m.gibPages → c.fitsPage size1G (c.virt.toNat + done.toNat) →
    (c.virt.toNat + done.toNat) % 2 ^ 30 = 0
  two : c.fitsPage size2M (c.virt.toNat + done.toNat) → (c.virt.toNat + done.toNat) % 2 ^ 21 = 0

/-- The page the loop places next is the one by which the call maps every address of it, and
the loop comes to the place behind it. -/
theorem Call.Comes.step (h : c.Comes m done) (hr : InRange c.virt c.phys c.size)
    (hlt : done.toNat < c.size.toNat) {level : ℕ}
    (hlevel : level = m.stepLevel (c.virt + done) (c.phys + done) (c.size - done))
    (hfit : done.toNat + (levelSize level).toNat ≤ c.size.toNat) :
    (∀ v : UInt64, c.virt.toNat + done.toNat ≤ v.toNat →
      v.toNat < c.virt.toNat + (done + levelSize level).toNat →
        c.levelAt m.gibPages v = level) ∧ c.Comes m (done + levelSize level) := by
  obtain ⟨hvd, hpd, hsd, -⟩ := hr.offset hlt
  have hva := hr.virt_aligned
  have hda := h.aligned
  have hnext : (done + levelSize level).toNat = done.toNat + (levelSize level).toNat :=
    toNat_add_of_le hfit
  have hroom : ∀ k, (c.virt.toNat + done.toNat) % k = 0 →
      (c.virt.toNat + done.toNat) / k * k + k ≤ c.virt.toNat + c.size.toNat →
        k ≤ c.size.toNat - done.toNat := by
    intro k hk hle
    rw [Nat.div_mul_cancel (Nat.dvd_of_mod_eq_zero hk)] at hle
    omega
  generalize hx : c.virt.toNat + done.toNat = x at *
  unfold Mapper.stepLevel at hlevel
  simp only [Bool.and_eq_true, fits_size1G, fits_size2M, hvd, hpd, hsd] at hlevel
  split at hlevel
  · next hstep =>
    subst hlevel
    rw [show (levelSize 2).toNat = 2 ^ 30 from rfl] at hnext hfit
    rw [hnext, ← Nat.add_assoc, hx]
    refine ⟨fun v hlo hhi => ?_, ?_, fun _ _ => ?_, fun _ => ?_⟩
    · rw [Call.levelAt, if_pos]
      rw [Bool.and_eq_true, fitsPage_size1G, div_eq_of_page le_rfl hstep.2.1 hlo hhi,
        Nat.div_mul_cancel (Nat.dvd_of_mod_eq_zero hstep.2.1)]
      exact ⟨hstep.1, by omega, by omega, by omega⟩
    · rw [hnext]
      omega
    · rw [hnext]
      omega
    · rw [hnext]
      omega
  next hnot =>
  have hgib : m.gibPages → ¬c.fitsPage size1G x := by
    intro hg hin
    have hcut := h.gib hg (hx ▸ hin)
    rw [hx] at hcut
    obtain ⟨-, hend, hcong⟩ := fitsPage_size1G.mp hin
    exact hnot ⟨hg, hcut, by omega, hroom _ hcut hend⟩
  rw [fitsPage_size1G] at hgib
  split at hlevel
  · next hstep =>
    subst hlevel
    rw [show (levelSize 1).toNat = 2 ^ 21 from rfl] at hnext hfit
    rw [hnext, ← Nat.add_assoc, hx]
    refine ⟨fun v hlo hhi => ?_, ?_, fun hg hin => ?_, fun _ => ?_⟩
    · rw [Call.levelAt, if_neg, if_pos]
      · rw [fitsPage_size2M, div_eq_of_page le_rfl hstep.1 hlo hhi,
          Nat.div_mul_cancel (Nat.dvd_of_mod_eq_zero hstep.1)]
        omega
      · rw [Bool.and_eq_true, fitsPage_size1G, div_eq_of_page (by omega) hstep.1 hlo hhi]
        exact fun hin => hgib hin.1 hin.2
    · rw [hnext]
      omega
    · rw [hnext, ← Nat.add_assoc, hx] at hin ⊢
      rw [fitsPage_size1G] at hin
      by_contra hcut
      rw [div_next_of_page (by omega) hstep.1 hcut] at hin
      exact hgib hg hin
    · rw [hnext]
      omega
  next hnot =>
  have htwo : ¬c.fitsPage size2M x := by
    intro hin
    have hcut := h.two (hx ▸ hin)
    rw [hx] at hcut
    obtain ⟨-, hend, hcong⟩ := fitsPage_size2M.mp hin
    exact hnot ⟨hcut, by omega, hroom _ hcut hend⟩
  rw [fitsPage_size2M] at htwo
  have hpage : x % 2 ^ 12 = 0 := by omega
  subst hlevel
  rw [show (levelSize 0).toNat = 2 ^ 12 from rfl] at hnext hfit
  rw [hnext, ← Nat.add_assoc, hx]
  refine ⟨fun v hlo hhi => ?_, ?_, fun hg hin => ?_, fun hin => ?_⟩
  · rw [Call.levelAt, if_neg, if_neg]
    · rw [fitsPage_size2M, div_eq_of_page (by omega) hpage hlo hhi]
      exact htwo
    · rw [Bool.and_eq_true, fitsPage_size1G, div_eq_of_page (by omega) hpage hlo hhi]
      exact fun hin => hgib hin.1 hin.2
  · rw [hnext]
    omega
  · rw [hnext, ← Nat.add_assoc, hx] at hin ⊢
    rw [fitsPage_size1G] at hin
    by_contra hcut
    rw [div_next_of_page (by omega) hpage hcut] at hin
    exact hgib hg hin
  · rw [hnext, ← Nat.add_assoc, hx] at hin ⊢
    rw [fitsPage_size2M] at hin
    by_contra hcut
    rw [div_next_of_page (by omega) hpage hcut] at hin
    exact htwo hin

end

section

variable {σ : Type} {F : FrameSource σ} {held : σ → Set UInt64} {s s' : σ} {c d : Call} {m : Mapper}
  {v : UInt64}

/-- No page that the call meets is larger than the one by which it maps that place. -/
def Call.Clear (F : FrameSource σ) (m : Mapper) (c : Call) (s : σ) : Prop :=
  ∀ v, c.Covers v → ∀ l, pageLevel F m v s = some l → l ≤ c.levelAt m.gibPages v

theorem Call.Covers.canonical (h : c.Covers v) (hr : InRange c.virt c.phys c.size) :
    Canonical v := by
  have hhalf := hr.half
  obtain ⟨hlo, hhi⟩ := h
  unfold Canonical
  omega

/-- What a call finds and leaves: when it succeeds it met no page larger than its own, and when
it fails otherwise than for want of a table it met one. -/
theorem perform_levels (hL : F.Lawful held) (hm : Built F held true (fun _ => True) m s)
    (hr : InRange c.virt c.phys c.size) {res : Except MapError Unit}
    (h : c.perform F m s = (res, s')) :
    (res = .ok () → c.Clear F m s ∧ ∀ v, Canonical v → pageLevel F m v s' =
        if c.Covers v then some (c.levelAt m.gibPages v) else pageLevel F m v s) ∧
      ∀ err, res = .error err → err = .outOfFrames ∨ ¬c.Clear F m s := by
  rw [perform_eq] at h
  have hstart : c.Comes m 0 := by
    refine ⟨rfl, fun _ hin => ?_, fun hin => ?_⟩
    · rw [Call.fitsPage_size1G] at hin
      have hzero : (0 : UInt64).toNat = 0 := rfl
      omega
    · rw [Call.fitsPage_size2M] at hin
      have hzero : (0 : UInt64).toNat = 0 := rfl
      omega
  have hrule := mapAs_rule hL trivial hr (fun _ _ _ => trivial)
    (P := fun done s₁ => c.Comes m done ∧
      (∀ v, c.Covers v → v.toNat < c.virt.toNat + done.toNat → ∀ l, pageLevel F m v s = some l →
        l ≤ c.levelAt m.gibPages v) ∧
      ∀ v, Canonical v → pageLevel F m v s₁ =
        if c.virt.toNat ≤ v.toNat ∧ v.toNat < c.virt.toNat + done.toNat then
          some (c.levelAt m.gibPages v)
        else pageLevel F m v s)
    (Q := fun err _ => err = .outOfFrames ∨ ¬c.Clear F m s)
    ?_ hm ⟨hstart, fun v hcov hlt => ?_, fun v _ => ?_⟩ h
  · exact ⟨fun hok => ⟨fun v hcov => (hrule.2.1 hok).2.1 v hcov hcov.2, (hrule.2.1 hok).2.2⟩,
      hrule.2.2⟩
  · rintro done level out s₁ s₂ made hm₁ ⟨hcomes, hover, hlevels⟩ hturn
    have hlt := hturn.lt
    obtain ⟨hhere, hnext⟩ := hcomes.step hr hlt hturn.largest hturn.fits
    have hdone := hturn.next
    obtain ⟨hvd, -, -, hcanon⟩ := hr.offset hlt
    have hpos := (levelSize_spec hturn.level_le).2
    refine ⟨fun hout => ⟨hnext, fun v hcov hv l hl => ?_, fun v hv => ?_⟩, fun err hout => ?_⟩
    · by_cases hold : v.toNat < c.virt.toNat + done.toNat
      · exact hover v hcov hold l hl
      · -- the page met is the one the turn's own address is on
        have hvcanon := hcov.canonical hr
        rw [hhere v (by omega) hv]
        have hmet := hlevels v hvcanon
        rw [if_neg (by omega)] at hmet
        rw [← hmet] at hl
        obtain ⟨p, hp, rfl⟩ := Option.map_eq_some_iff.mp hl
        by_contra hlarger
        have hpage := (samePage_range hturn.level_le hcanon hvcanon hturn.virt_aligned).mpr
          ⟨by omega, by omega⟩
        exact hlarger (hturn.clear hout p
          (leafAt_same hp fun k hk hk4 => (hpage k (by omega) hk4).symm))
    · rw [(hturn.pages hr hv).1 hout, hlevels v hv]
      by_cases hold : v.toNat < c.virt.toNat + done.toNat
      · rw [if_neg (by omega)]
        by_cases hlo : c.virt.toNat ≤ v.toNat
        · rw [if_pos ⟨hlo, hold⟩, if_pos ⟨hlo, by omega⟩]
        · rw [if_neg (by omega), if_neg (by omega)]
      · by_cases hnew : v.toNat < c.virt.toNat + (done + levelSize level).toNat
        · by_cases hlo : c.virt.toNat ≤ v.toNat
          · rw [if_pos ⟨by omega, hnew⟩, if_pos ⟨hlo, hnew⟩, hhere v (by omega) hnew]
          · rw [if_neg (by omega), if_neg (by omega), if_neg (by omega)]
        · rw [if_neg (by omega), if_neg (by omega), if_neg (by omega)]
    · have hfail := hturn.failed err hout
      cases err with
      | misaligned => exact absurd hfail not_false
      | outOfFrames => exact .inl rfl
      | largePageCollision =>
        obtain ⟨p, hp, hlarger⟩ := hfail
        have hmet : pageLevel F m (c.virt + done) s₁ = some p.1 := by
          rw [pageLevel, hp]
          rfl
        rw [hlevels _ hcanon, if_neg (by omega)] at hmet
        refine .inr fun hclear => ?_
        have hle := hclear _ ⟨by omega, by omega⟩ p.1 hmet
        rw [hhere _ (by omega) (by omega)] at hle
        omega
  · have hzero : (0 : UInt64).toNat = 0 := rfl
    have hlo := hcov.1
    omega
  · rw [if_neg]
    have hzero : (0 : UInt64).toNat = 0 := rfl
    omega

/-- Given the tables they ask for, calls succeed exactly when none meets a page larger than its
own, in the tree or of a call before it. -/
theorem performAll_ok_iff (hL : F.Lawful held) {cs : List Call}
    (hcs : ∀ c ∈ cs, InRange c.virt c.phys c.size) (hm : Built F held true (fun _ => True) m s)
    {res : Except MapError Unit} (h : Call.performAll F m cs s = (res, s'))
    (hres : res ≠ .error .outOfFrames) :
    res = .ok () ↔ (∀ c ∈ cs, c.Clear F m s) ∧
      cs.Pairwise fun d c => c.FitsOver m.gibPages d := by
  induction cs generalizing s with
  | nil =>
    obtain rfl : .ok () = res := (Prod.ext_iff.mp h).1
    simp
  | cons c cs ih =>
    have hrange := hcs c List.mem_cons_self
    have hrest := fun d hd => hcs d (List.mem_cons_of_mem c hd)
    rw [Call.performAll] at h
    split at h
    · next err s₁ hc =>
      obtain ⟨rfl, rfl⟩ := Prod.ext_iff.mp h
      refine iff_of_false (by simp) fun hover => ?_
      obtain rfl | hmet := (perform_levels hL hm hrange hc).2 err rfl
      · exact hres rfl
      · exact hmet (hover.1 c List.mem_cons_self)
    · next s₁ hc =>
      obtain ⟨hover, hlevels⟩ := (perform_levels hL hm hrange hc).1 rfl
      have hm₁ : Built F held true (fun _ => True) m s₁ := by
        rw [perform_eq] at hc
        exact (mapAs_mapped hL hm hrange hc).1
      have hcanon : ∀ d ∈ cs, ∀ v, d.Covers v → Canonical v :=
        fun d hd v hcov => hcov.canonical (hrest d hd)
      rw [ih hrest hm₁ h, List.forall_mem_cons, List.pairwise_cons]
      constructor
      · rintro ⟨hafter, hpair⟩
        have hfits : ∀ d ∈ cs, d.FitsOver m.gibPages c := by
          intro d hd v hcov hcov'
          refine hafter d hd v hcov' _ ?_
          rw [hlevels v (hcanon d hd v hcov'), if_pos hcov]
        refine ⟨⟨hover, fun d hd v hcov l hl => ?_⟩, hfits, hpair⟩
        by_cases hboth : c.Covers v
        · exact (hover v hboth l hl).trans (hfits d hd v hboth hcov)
        · refine hafter d hd v hcov l ?_
          rwa [hlevels v (hcanon d hd v hcov), if_neg hboth]
      · rintro ⟨⟨-, hbefore⟩, hfits, hpair⟩
        refine ⟨fun d hd v hcov l hl => ?_, hpair⟩
        rw [hlevels v (hcanon d hd v hcov)] at hl
        split at hl
        · next hboth =>
          rw [← Option.some.inj hl]
          exact hfits d hd v hboth hcov
        · exact hbefore d hd v hcov l hl

/-- On a new tree there is nothing else to meet. -/
theorem performAll_new_iff (hL : F.Lawful held) {cs : List Call}
    (hcs : ∀ c ∈ cs, InRange c.virt c.phys c.size) {gib : Bool} {s₀ : σ}
    (hnew : Mapper.new F gib s₀ = (.ok m, s)) {res : Except MapError Unit}
    (h : Call.performAll F m cs s = (res, s')) (hres : res ≠ .error .outOfFrames) :
    res = .ok () ↔ cs.Pairwise fun d c => c.FitsOver m.gibPages d := by
  obtain ⟨hm, hnone⟩ := new_built hL hnew
  rw [performAll_ok_iff hL hcs hm h hres, and_iff_right]
  intro c _ v _ l hl
  rw [pageLevel_none hm (hnone v)] at hl
  cases hl

/-- Where every call that covers an address answers the same, the list answers that. -/
theorem lastAnswer_eq_some {cs : List Call} {a : UInt64 × Rights × MemoryType}
    (hsome : ∃ c ∈ cs, c.Covers v) (hall : ∀ c ∈ cs, c.Covers v → c.answer v = a) :
    Call.lastAnswer cs v = some a := by
  unfold Call.lastAnswer
  cases hfind : cs.reverse.find? (·.Covers v) with
  | none =>
    obtain ⟨c, hc, hcov⟩ := hsome
    exact absurd (by simpa using hcov)
      (List.find?_eq_none.mp hfind c (List.mem_reverse.mpr hc))
  | some c =>
    have hmem := List.mem_reverse.mp (List.mem_of_find?_eq_some hfind)
    have hcov : c.Covers v := by simpa using List.find?_some hfind
    rw [Option.map_some, hall c hmem hcov]

/-- Among calls that do not meet, the one that covers an address answers for it. -/
theorem lastAnswer_of_mem {cs : List Call}
    (hapart : cs.Pairwise fun c d => ∀ v, c.Covers v → ¬d.Covers v) {c : Call} (hc : c ∈ cs)
    (hcov : c.Covers v) : Call.lastAnswer cs v = some (c.answer v) := by
  refine lastAnswer_eq_some ⟨c, hc, hcov⟩ fun d hd hcov' => ?_
  by_contra hne
  have : Std.Symm fun c d : Call => ∀ v, c.Covers v → ¬d.Covers v :=
    ⟨fun c d h v hd hc => h v hc hd⟩
  exact hapart.forall hc hd (fun heq => hne (by rw [heq])) v hcov hcov'

/-- The latest call is the first to answer. -/
theorem lastAnswer_concat (cs : List Call) (c : Call) (v : UInt64) :
    Call.lastAnswer (cs ++ [c]) v =
      if c.Covers v then some (c.answer v) else Call.lastAnswer cs v := by
  rw [Call.lastAnswer, Call.lastAnswer, List.reverse_append, List.reverse_singleton,
    List.singleton_append, List.find?_cons]
  by_cases hcov : c.Covers v <;> simp [hcov]

theorem lastAnswer_eq_none {cs : List Call} (h : ∀ c ∈ cs, ¬c.Covers v) :
    Call.lastAnswer cs v = none := by
  rw [Call.lastAnswer, Option.map_eq_none_iff, List.find?_eq_none]
  intro c hc
  simpa using h c (List.mem_reverse.mp hc)

end

end StarOs.Paging
