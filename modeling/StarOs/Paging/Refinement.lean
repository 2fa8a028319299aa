import Mathlib.Logic.Function.Basic
import Mathlib.Tactic.IntervalCases
import StarOs.Paging.Walk

/-! The mapper refines a partial map. Each leaf takes exactly the addresses of its page over
from whatever answered for them before, so after any calls an address is answered for by the
last call that covers it. -/

namespace StarOs.Paging

open Library

def Canonical (v : UInt64) : Prop := v.toNat < 2 ^ 47 ∨ 2 ^ 64 - 2 ^ 47 ≤ v.toNat

/-- The bits of an address that the walk reads. -/
def slot (v : UInt64) : ℕ := v.toNat % 2 ^ 48

/-- The walk tells pages apart by them. -/
theorem samePage_slot {virt v : UInt64} {level : ℕ} (hl : level ≤ 2) : SamePage virt level 4 v ↔
    slot v / (levelSize level).toNat = slot virt / (levelSize level).toNat := by
  have hsame : SamePage virt level 4 v ↔ ∀ k, level ≤ k → k < 4 →
      v.toNat / 2 ^ (12 + 9 * k) % 512 = virt.toNat / 2 ^ (12 + 9 * k) % 512 := by
    refine forall_congr' fun k => forall_congr' fun _ => forall_congr' fun hk => ?_
    rw [index_eq (by omega), index_eq (by omega)]
  rw [hsame, levelSize_toNat, Nat.min_eq_left hl]
  unfold slot
  constructor
  · intro h
    have h3 := h 3 (by omega) (by omega)
    interval_cases level
    · have h0 := h 0 (by omega) (by omega)
      have h1 := h 1 (by omega) (by omega)
      have h2 := h 2 (by omega) (by omega)
      omega
    · have h1 := h 1 (by omega) (by omega)
      have h2 := h 2 (by omega) (by omega)
      omega
    · have h2 := h 2 (by omega) (by omega)
      omega
  · intro h k hk hk4
    interval_cases level <;> interval_cases k <;> omega

/-- For canonical addresses the walk tells pages apart, and nothing else. -/
theorem samePage_iff {virt v : UInt64} {level : ℕ} (hl : level ≤ 2) (hvirt : Canonical virt)
    (hv : Canonical v) : SamePage virt level 4 v ↔
      v.toNat / (levelSize level).toNat = virt.toNat / (levelSize level).toNat := by
  have hlt := v.toNat_lt
  have hlt' := virt.toNat_lt
  rw [samePage_slot hl, levelSize_toNat, Nat.min_eq_left hl]
  unfold Canonical at hvirt hv
  unfold slot
  interval_cases level <;> omega

section Leaf

variable {phys v : UInt64} {r : Rights} {m : MemoryType} {level : ℕ}

theorem leafEntry_spec (r : Rights) (m : MemoryType) (level : ℕ) (h : Framed phys) :
    present (leafEntry phys r m level) ∧
    huge (leafEntry phys r m level) = decide (0 < level) ∧
    leafEntry phys r m level &&& pteAddrMask = phys ∧
    Rights.fromBits (leafEntry phys r m level) = r ∧
    MemoryType.fromBits (leafEntry phys r m level) = m := by
  have hleaf := leaf_entry (r := r) (m := m) h (decide (0 < level))
  simpa only [leafEntry, decide_eq_true_eq, gt_iff_lt] using hleaf

theorem leafEntry_low (r : Rights) (m : MemoryType) (level : ℕ) (h : phys.toNat % 4096 = 0) :
    present (leafEntry phys r m level) ∧
      huge (leafEntry phys r m level) = decide (0 < level) ∧
      (Rights.fromBits (leafEntry phys r m level)).user = r.user ∧
      (r.exec = false → Rights.fromBits (leafEntry phys r m level) = r) ∧
      leafEntry phys r m level &&& pteAddrMask = phys &&& pteAddrMask := by
  have hleaf := leaf_low (r := r) (m := m) h (decide (0 < level))
  simpa only [leafEntry, decide_eq_true_eq, gt_iff_lt] using hleaf

/-- A leaf for an address aligned to its size translates an address by its offset. -/
theorem leafTranslation_leafEntry (h : Framed phys)
    (ha : phys.toNat % (levelSize level).toNat = 0) :
    leafTranslation v (level, leafEntry phys r m level) =
      ⟨phys + (v &&& (levelSize level - 1)), r, m, levelSize level⟩ := by
  obtain ⟨-, -, haddr, hrights, htype⟩ := leafEntry_spec r m level h
  have hround : phys &&& ~~~(levelSize level - 1) = phys := by
    apply UInt64.toNat_inj.mp
    rw [(page_parts phys level).2, Nat.div_mul_cancel (Nat.dvd_of_mod_eq_zero ha)]
  simp only [leafTranslation, haddr, hrights, htype, hround]

end Leaf

section

variable {σ : Type} {F : FrameSource σ} {held : σ → Set UInt64} {whole : Bool}
  {last : UInt64 → Prop} {s s' : σ} {m : Mapper}

/-- The tree of a mapper is in order. -/
structure Built (F : FrameSource σ) (held : σ → Set UInt64) (whole : Bool) (last : UInt64 → Prop)
    (m : Mapper) (s : σ) : Prop where
  root : Framed m.root
  tree : TreeOk F held whole last s 4 (rootEntry m.root)

theorem Built.translate (h : Built F held whole last m s) {v : UInt64}
    (hv : whole ∨ index v 3 < 256) : m.translate F v s =
      (leafAt whole (F.read s) 4 (rootEntry m.root) v).map (leafTranslation v) :=
  translate_eq h.root hv h.tree.holds

/-- The call of `map_leaf`, however it ends. -/
theorem mapLeaf_spec (hL : F.Lawful held) (hzero : last 0) (hm : Built F held whole last m s)
    {virt phys : UInt64} {r : Rights} {mt : MemoryType} {level : ℕ} (hl : level ≤ 2)
    (hv : whole ∨ index virt 3 < 256) (hphys : phys.toNat % 4096 = 0)
    (hlast : last (leafEntry phys r mt level)) {res : Except MapError Unit}
    (h : m.mapLeaf F virt phys r mt level s = (res, s')) :
    ∃ made, Change F held whole last s s' (fun _ _ => False) 4 (rootEntry m.root)
      (rootEntry m.root) virt level (placed res (leafEntry phys r mt level)) made ∧
        OneEntry F s s' m.root (index virt 3) r ∧
        ∀ err, res = .error err → Failed F whole s 4 (rootEntry m.root) virt level err := by
  obtain ⟨-, hhuge, huser, -⟩ := leafEntry_low r mt level hphys
  obtain ⟨-, -, -, hroot⟩ := intermediate_entry (r := ⟨true, true, true⟩) hm.root
  have hlevel : level + (3 - level) + 1 = 4 := by omega
  have hspec := mapLeafFrom_spec (n := 3 - level) hL hzero hv
    (fun hpos => child_of_huge (by rw [hhuge]; simpa using hpos)) hlast (by rw [huser]; exact id)
    (hlevel ▸ hm.tree) (child_rootEntry whole hm.root)
    (by rw [rootEntry, hroot]) (by rw [rootEntry, hroot]) (by rw [rootEntry, hroot]; simp) h
  rw [hlevel, show level + (3 - level) = 3 by omega] at hspec
  obtain ⟨made, hchange, hone, hfail⟩ := hspec
  exact ⟨made, hchange, hone (by omega), hfail⟩

/-- A leaf is not placed in a larger page. -/
theorem mapLeaf_collides (hL : F.Lawful held) (hzero : last 0) (hm : Built F held true last m s)
    {virt phys : UInt64} {r : Rights} {mt : MemoryType} {level : ℕ} (hl : level ≤ 2)
    {p : ℕ × UInt64} (hp : leafAt true (F.read s) 4 (rootEntry m.root) virt = some p)
    (hlt : level < p.1) : (m.mapLeaf F virt phys r mt level s).1 = .error .largePageCollision := by
  have hlevel : level + (3 - level) + 1 = 4 := by omega
  exact mapLeafFrom_collides hL hzero (hlevel ▸ hm.tree) (child_rootEntry true hm.root)
    (hlevel ▸ hp) hlt

theorem Built.change (hm : Built F held whole last m s) {virt : UInt64} {level : ℕ}
    {put : Option UInt64} {made : List UInt64}
    (h : Change F held whole last s s' (fun _ _ => False) 4
      (rootEntry m.root) (rootEntry m.root) virt level put made) : Built F held whole last m s' :=
  ⟨hm.root, hm.tree.change h⟩

/-- The page at an aligned address, as a range. -/
theorem samePage_range {virt v : UInt64} {level : ℕ} (hl : level ≤ 2) (hvirt : Canonical virt)
    (hv : Canonical v) (hva : virt.toNat % (levelSize level).toNat = 0) :
    SamePage virt level 4 v ↔
      virt.toNat ≤ v.toNat ∧ v.toNat < virt.toNat + (levelSize level).toNat := by
  have hpos : 0 < (levelSize level).toNat := by
    rw [levelSize_toNat]
    exact Nat.two_pow_pos _
  rw [samePage_iff hl hvirt hv]
  have hdiv := Nat.div_add_mod virt.toNat (levelSize level).toNat
  rw [hva, Nat.add_zero] at hdiv
  rw [Nat.div_eq_iff hpos, Nat.mul_comm, hdiv]
  omega

/-- What one leaf changes for canonical addresses: its page. -/
theorem Change.translate (hm : Built F held true last m s) {virt phys v : UInt64} {r : Rights}
    {ty : MemoryType} {level : ℕ} {made : List UInt64}
    (h : Change F held true last s s' (fun _ _ => False) 4 (rootEntry m.root) (rootEntry m.root)
      virt level (some (leafEntry phys r ty level)) made)
    (hl : level ≤ 2) (hvirt : Canonical virt) (hv : Canonical v) (hphys : Framed phys)
    (hva : virt.toNat % (levelSize level).toNat = 0)
    (hpa : phys.toNat % (levelSize level).toNat = 0) :
    m.translate F v s' =
      if virt.toNat ≤ v.toNat ∧ v.toNat < virt.toNat + (levelSize level).toNat then
        some ⟨phys + (v - virt), r, ty, levelSize level⟩
      else m.translate F v s := by
  have hpage := samePage_range hl hvirt hv hva
  rw [(hm.change h).translate (.inl rfl), hm.translate (.inl rfl)]
  split
  · next hin =>
    rw [h.hit _ rfl v (.inl rfl) (hpage.mpr hin), if_pos (leafEntry_spec r ty level hphys).1,
      Option.map_some, leafTranslation_leafEntry hphys hpa]
    have hoff : v &&& (levelSize level - 1) = v - virt := by
      apply UInt64.toNat_inj.mp
      rw [(page_parts v level).1, UInt64.toNat_sub_of_le _ _ (UInt64.le_iff_toNat_le.mpr hin.1)]
      obtain ⟨q, hq⟩ := Nat.dvd_of_mod_eq_zero hva
      rw [Nat.mod_eq_iff]
      refine .inr ⟨by omega, q, ?_⟩
      omega
    rw [hoff]
  · next hout =>
    rw [h.miss v (.inl rfl) (.inr (mt hpage.mp hout))]

theorem isMultipleOf_iff {x n : UInt64} : isMultipleOf x n ↔ x.toNat % n.toNat = 0 := by
  rw [isMultipleOf, beq_iff_eq, ← UInt64.toNat_inj, UInt64.toNat_mod]
  rfl

/-- `map_as` looks at the alignment of its three arguments, and then it is its loop. -/
theorem mapAs_eq (F : FrameSource σ) (m : Mapper) (virt phys size : UInt64) (r : Rights)
    (ty : MemoryType) (s : σ) : m.mapAs F virt phys size r ty s =
      if virt.toNat % 4096 = 0 ∧ phys.toNat % 4096 = 0 ∧ size.toNat % 4096 = 0 then
        m.mapLoop F virt phys size r ty (size.toNat / 4096) 0 s
      else (.error .misaligned, s) := by
  have hpage : ∀ x : UInt64, isMultipleOf x pageSize = decide (x.toNat % 4096 = 0) := fun x =>
    Bool.eq_iff_iff.mpr (isMultipleOf_iff.trans decide_eq_true_iff.symm)
  simp only [Mapper.mapAs, hpage]
  by_cases hv : virt.toNat % 4096 = 0
  · by_cases hp : phys.toNat % 4096 = 0
    · by_cases hs : size.toNat % 4096 = 0 <;> simp [hv, hp, hs]
    · simp [hv, hp]
  · simp [hv]

/-- The page size chosen divides both addresses and fits in what is left. -/
theorem stepLevel_spec (m : Mapper) {virt phys left : UInt64} (hvirt : virt.toNat % 4096 = 0)
    (hphys : phys.toNat % 4096 = 0) (hleft : 4096 ≤ left.toNat) :
    m.stepLevel virt phys left ≤ 2 ∧
      virt.toNat % (levelSize (m.stepLevel virt phys left)).toNat = 0 ∧
      phys.toNat % (levelSize (m.stepLevel virt phys left)).toNat = 0 ∧
      (levelSize (m.stepLevel virt phys left)).toNat ≤ left.toNat := by
  have hfits : ∀ size, fits virt phys left size → virt.toNat % size.toNat = 0 ∧
      phys.toNat % size.toNat = 0 ∧ size.toNat ≤ left.toNat := by
    intro size h
    simp only [fits, Bool.and_eq_true, decide_eq_true_eq] at h
    exact ⟨isMultipleOf_iff.mp h.1.1, isMultipleOf_iff.mp h.1.2, UInt64.le_iff_toNat_le.mp h.2⟩
  unfold Mapper.stepLevel
  split
  · next h => exact ⟨by omega, hfits _ (Bool.and_eq_true_iff.mp h).2⟩
  · split
    · next h => exact ⟨by omega, hfits _ h⟩
    · exact ⟨by omega, hvirt, hphys, hleft⟩

/-- The arguments of a call that stays in one canonical half and in physical memory. -/
structure InRange (virt phys size : UInt64) : Prop where
  virt_aligned : virt.toNat % 4096 = 0
  phys_aligned : phys.toNat % 4096 = 0
  size_aligned : size.toNat % 4096 = 0
  half : virt.toNat + size.toNat ≤ 2 ^ 47 ∨
    2 ^ 64 - 2 ^ 47 ≤ virt.toNat ∧ virt.toNat + size.toNat ≤ 2 ^ 64
  phys_lt : phys.toNat + size.toNat ≤ 2 ^ 52

/-- One turn of the loop of `map_as`, however it ends. -/
structure Turn (F : FrameSource σ) (held : σ → Set UInt64) (last : UInt64 → Prop) (m : Mapper)
    (virt phys size : UInt64) (r : Rights) (ty : MemoryType) (done : UInt64) (level : ℕ)
    (res : Except MapError Unit) (s s' : σ) (made : List UInt64) : Prop where
  fits : done.toNat + (levelSize level).toNat ≤ size.toNat
  largest : level = m.stepLevel (virt + done) (phys + done) (size - done)
  level_le : level ≤ 2
  virt_aligned : (virt + done).toNat % (levelSize level).toNat = 0
  phys_aligned : (phys + done).toNat % (levelSize level).toNat = 0
  change : Change F held true last s s' (fun _ _ => False) 4 (rootEntry m.root)
    (rootEntry m.root) (virt + done) level (placed res (leafEntry (phys + done) r ty level)) made
  entry : OneEntry F s s' m.root (index (virt + done) 3) r
  failed : ∀ err, res = .error err →
    Failed F true s 4 (rootEntry m.root) (virt + done) level err
  clear : res = .ok () → ∀ p, leafAt true (F.read s) 4 (rootEntry m.root) (virt + done) = some p →
    p.1 ≤ level

theorem levelSize_spec {level : ℕ} (hl : level ≤ 2) :
    (levelSize level).toNat % 4096 = 0 ∧ 4096 ≤ (levelSize level).toNat := by
  rw [levelSize_toNat, Nat.min_eq_left hl]
  interval_cases level <;> simp

theorem toNat_add_of_le {a b c : UInt64} (h : a.toNat + b.toNat ≤ c.toNat) :
    (a + b).toNat = a.toNat + b.toNat := by
  have hc := c.toNat_lt
  rw [UInt64.toNat_add, Nat.mod_eq_of_lt]
  omega

/-- Where a call stands when it comes to an offset of its range. -/
theorem InRange.offset {virt phys size done : UInt64} (hr : InRange virt phys size)
    (h : done.toNat < size.toNat) : (virt + done).toNat = virt.toNat + done.toNat ∧
      (phys + done).toNat = phys.toNat + done.toNat ∧
      (size - done).toNat = size.toNat - done.toNat ∧ Canonical (virt + done) := by
  have hhalf := hr.half
  have hphys := hr.phys_lt
  have hvd : (virt + done).toNat = virt.toNat + done.toNat := by
    rw [UInt64.toNat_add, Nat.mod_eq_of_lt]
    omega
  have hpd : (phys + done).toNat = phys.toNat + done.toNat := by
    rw [UInt64.toNat_add, Nat.mod_eq_of_lt]
    omega
  refine ⟨hvd, hpd, UInt64.toNat_sub_of_le _ _ (UInt64.le_iff_toNat_le.mpr h.le), ?_⟩
  unfold Canonical
  omega

theorem Turn.lt {virt phys size : UInt64} {r : Rights} {ty : MemoryType} {done : UInt64} {level : ℕ}
    {res : Except MapError Unit} {made : List UInt64}
    (h : Turn F held last m virt phys size r ty done level res s s' made) :
    done.toNat < size.toNat := by
  have hfit := h.fits
  obtain ⟨-, hpos⟩ := levelSize_spec h.level_le
  omega

/-- Where it comes to next. -/
theorem Turn.next {virt phys size : UInt64} {r : Rights} {ty : MemoryType} {done : UInt64} {level : ℕ}
    {res : Except MapError Unit} {made : List UInt64}
    (h : Turn F held last m virt phys size r ty done level res s s' made) :
    (done + levelSize level).toNat = done.toNat + (levelSize level).toNat := toNat_add_of_le h.fits

/-- The rule of the loop of `map_as`: `P` holds at the turns it comes to, and `Q` at the turn
it gives up at. It stops only when the whole size is done. -/
theorem mapLoop_rule (hL : F.Lawful held) (hzero : last 0) {virt phys size : UInt64} {r : Rights}
    {ty : MemoryType} (hva : virt.toNat % 4096 = 0) (hpa : phys.toNat % 4096 = 0)
    (hsa : size.toNat % 4096 = 0)
    (hlast : ∀ p level, p.toNat % 4096 = 0 → last (leafEntry p r ty level))
    {P : UInt64 → σ → Prop} {Q : MapError → σ → Prop}
    (hstep : ∀ done level res s s' made, Built F held true last m s → P done s →
      Turn F held last m virt phys size r ty done level res s s' made →
      (res = .ok () → P (done + levelSize level) s') ∧ ∀ err, res = .error err → Q err s')
    {n : ℕ} {done : UInt64} {res : Except MapError Unit} (hm : Built F held true last m s)
    (hP : P done s) (hdone : done.toNat ≤ size.toNat) (hda : done.toNat % 4096 = 0)
    (hn : size.toNat ≤ done.toNat + 4096 * n)
    (h : m.mapLoop F virt phys size r ty n done s = (res, s')) :
    Built F held true last m s' ∧ (res = .ok () → P size s') ∧
      ∀ err, res = .error err → Q err s' := by
  have hend : ∀ {done : UInt64} {s : σ}, size.toNat ≤ done.toNat → done.toNat ≤ size.toNat →
      P done s → P size s := fun hle hge hP => by
    rwa [← UInt64.toNat_inj.mp (Nat.le_antisymm hge hle)]
  induction n generalizing s done with
  | zero =>
    obtain ⟨rfl, rfl⟩ := Prod.ext_iff.mp h
    exact ⟨hm, fun _ => hend (by simpa using hn) hdone hP, fun err herr => nomatch herr⟩
  | succ n ih =>
    rw [Mapper.mapLoop] at h
    split at h
    · next hlt =>
      have hlt := UInt64.lt_iff_toNat_lt.mp hlt
      have hsum : ∀ x : UInt64, x.toNat % 4096 = 0 → (x + done).toNat % 4096 = 0 := by
        intro x hx
        rw [UInt64.toNat_add]
        omega
      have hsd : (size - done).toNat = size.toNat - done.toNat :=
        UInt64.toNat_sub_of_le _ _ (UInt64.le_iff_toNat_le.mpr hdone)
      obtain ⟨hl, hsv, hsp, hfit⟩ := @stepLevel_spec m (virt + done) (phys + done) (size - done)
        (hsum virt hva) (hsum phys hpa) (by omega)
      dsimp only at h
      generalize hlargest : m.stepLevel (virt + done) (phys + done) (size - done) = level
        at h hl hsv hsp hfit
      cases hleaf : m.mapLeaf F (virt + done) (phys + done) r ty level s with
      | mk out s₁ =>
        obtain ⟨made, hchange, hone, hfail⟩ := mapLeaf_spec hL hzero hm hl (.inl rfl)
          (hsum phys hpa) (hlast _ _ (hsum phys hpa)) hleaf
        have hturn := hstep done level out s s₁ made hm hP
          ⟨by omega, hlargest.symm, hl, hsv, hsp, hchange, hone, hfail, fun hout p hp => by
            by_contra hlarger
            have hstop : (m.mapLeaf F (virt + done) (phys + done) r ty level s).1 =
                .error .largePageCollision := mapLeaf_collides hL hzero hm hl hp (not_le.mp hlarger)
            rw [hleaf, hout] at hstop
            cases hstop⟩
        rw [hleaf] at h
        cases out with
        | error err =>
          obtain ⟨rfl, rfl⟩ := Prod.ext_iff.mp h
          refine ⟨hm.change hchange, fun hok => (nomatch hok), fun err' herr => ?_⟩
          exact hturn.2 err' herr
        | ok =>
          have hstepd : (done + levelSize level).toNat = done.toNat + (levelSize level).toNat :=
            toNat_add_of_le (c := size) (by omega)
          have hsize := levelSize_spec hl
          exact ih (hm.change hchange) (hturn.1 rfl) (by omega) (by omega) (by omega) h
    · next hge =>
      obtain ⟨rfl, rfl⟩ := Prod.ext_iff.mp h
      exact ⟨hm, fun _ => hend (UInt64.le_iff_toNat_le.mp (by simpa using hge)) hdone hP,
        fun err herr => nomatch herr⟩

/-- The rule of `map_as`, which gives up before its first turn on misaligned arguments. -/
theorem mapAs_rule_any (hL : F.Lawful held) (hzero : last 0) {virt phys size : UInt64} {r : Rights}
    {ty : MemoryType} (hlast : ∀ p level, p.toNat % 4096 = 0 → last (leafEntry p r ty level))
    {P : UInt64 → σ → Prop} {Q : MapError → σ → Prop}
    (hstep : ∀ done level res s s' made, Built F held true last m s → P done s →
      Turn F held last m virt phys size r ty done level res s s' made →
      (res = .ok () → P (done + levelSize level) s') ∧ ∀ err, res = .error err → Q err s')
    {res : Except MapError Unit} (hm : Built F held true last m s) (hP : P 0 s)
    (hmis : ¬(virt.toNat % 4096 = 0 ∧ phys.toNat % 4096 = 0 ∧ size.toNat % 4096 = 0) →
      Q .misaligned s)
    (h : m.mapAs F virt phys size r ty s = (res, s')) :
    Built F held true last m s' ∧ (res = .ok () → P size s') ∧
      ∀ err, res = .error err → Q err s' := by
  rw [mapAs_eq] at h
  split at h
  · next haligned =>
    obtain ⟨hva, hpa, hsa⟩ := haligned
    exact mapLoop_rule hL hzero hva hpa hsa hlast hstep hm hP (by simp) (by simp) (by simp; omega) h
  · next hnot =>
    obtain ⟨rfl, rfl⟩ := Prod.ext_iff.mp h
    refine ⟨hm, fun hok => (nomatch hok), fun err herr => ?_⟩
    obtain rfl : MapError.misaligned = err := Except.error.inj herr
    exact hmis hnot

theorem InRange.aligned {virt phys size : UInt64} (h : InRange virt phys size) :
    virt.toNat % 4096 = 0 ∧ phys.toNat % 4096 = 0 ∧ size.toNat % 4096 = 0 :=
  ⟨h.virt_aligned, h.phys_aligned, h.size_aligned⟩

/-- The rule of `map_as` on aligned arguments. -/
theorem mapAs_rule (hL : F.Lawful held) (hzero : last 0) {virt phys size : UInt64} {r : Rights}
    {ty : MemoryType} (hr : InRange virt phys size)
    (hlast : ∀ p level, p.toNat % 4096 = 0 → last (leafEntry p r ty level))
    {P : UInt64 → σ → Prop} {Q : MapError → σ → Prop}
    (hstep : ∀ done level res s s' made, Built F held true last m s → P done s →
      Turn F held last m virt phys size r ty done level res s s' made →
      (res = .ok () → P (done + levelSize level) s') ∧ ∀ err, res = .error err → Q err s')
    {res : Except MapError Unit} (hm : Built F held true last m s) (hP : P 0 s)
    (h : m.mapAs F virt phys size r ty s = (res, s')) :
    Built F held true last m s' ∧ (res = .ok () → P size s') ∧
      ∀ err, res = .error err → Q err s' :=
  mapAs_rule_any hL hzero hlast hstep hm hP (fun hnot => absurd hr.aligned hnot) h

/-- The answer to an address, without the size of the page it is on. -/
def Translation.answer (t : Translation) : UInt64 × Rights × MemoryType :=
  (t.phys, t.rights, t.memoryType)

/-- The first `k` bytes of a range are mapped as asked, and all else is as it was. -/
def Mapped (F : FrameSource σ) (m : Mapper) (virt phys : UInt64) (r : Rights) (ty : MemoryType)
    (k : UInt64) (s s' : σ) : Prop :=
  ∀ v, Canonical v →
    (virt.toNat ≤ v.toNat ∧ v.toNat < virt.toNat + k.toNat →
      (m.translate F v s').map Translation.answer = some (phys + (v - virt), r, ty)) ∧
    (¬(virt.toNat ≤ v.toNat ∧ v.toNat < virt.toNat + k.toNat) →
      m.translate F v s' = m.translate F v s)

/-- One more leaf. -/
theorem Turn.mapped {virt phys size : UInt64} {r : Rights} {ty : MemoryType}
    (hr : InRange virt phys size) {done : UInt64} {level : ℕ} {res : Except MapError Unit}
    {s₀ : σ} {made : List UInt64} (hm : Built F held true last m s)
    (h : Turn F held last m virt phys size r ty done level res s s' made)
    (hP : Mapped F m virt phys r ty done s₀ s) :
    (res = .ok () → Mapped F m virt phys r ty (done + levelSize level) s₀ s') ∧
      ∀ err, res = .error err → Mapped F m virt phys r ty done s₀ s' := by
  have hpl := hr.phys_lt
  have hfit := h.fits
  obtain ⟨hsize, hpos⟩ := levelSize_spec h.level_le
  obtain ⟨hvd, hpd, -, hvirt⟩ := hr.offset h.lt
  have hdone := h.next
  constructor
  · rintro rfl v hv
    have hframed : Framed (phys + done) := by
      have hdvd := (Nat.dvd_of_mod_eq_zero hsize).trans (Nat.dvd_of_mod_eq_zero h.phys_aligned)
      exact framed_iff.mpr ⟨Nat.mod_eq_zero_of_dvd hdvd, by omega⟩
    obtain ⟨hin, hout⟩ := hP v hv
    rw [h.change.translate hm h.level_le hvirt hv hframed h.virt_aligned h.phys_aligned, hvd, hdone]
    constructor
    · intro hnew
      by_cases hlast : virt.toNat + done.toNat ≤ v.toNat
      · rw [if_pos (by omega), Option.map_some, Translation.answer]
        have hoff : phys + done + (v - (virt + done)) = phys + (v - virt) := by grind
        rw [hoff]
      · rw [if_neg (by omega), hin (by omega)]
    · intro hold
      rw [if_neg (by omega), hout (by omega)]
  · rintro err rfl v hv
    have hsame : m.translate F v s' = m.translate F v s := by
      rw [(hm.change h.change).translate (.inl rfl), hm.translate (.inl rfl),
        h.change.miss v (.inl rfl) (.inl rfl)]
    rw [hsame]
    exact hP v hv

/-- One call, however it ends, takes over the addresses at the front of its range, and no
others; all of them when it succeeds. -/
theorem mapAs_mapped (hL : F.Lawful held) (hm : Built F held true (fun _ => True) m s)
    {virt phys size : UInt64} {r : Rights} {ty : MemoryType} (hr : InRange virt phys size)
    {res : Except MapError Unit} (h : m.mapAs F virt phys size r ty s = (res, s')) :
    Built F held true (fun _ => True) m s' ∧ (res = .ok () → Mapped F m virt phys r ty size s s') ∧
      ∀ err, res = .error err → err ≠ .misaligned ∧
        ∃ k, k.toNat < size.toNat ∧ Mapped F m virt phys r ty k s s' := by
  refine mapAs_rule hL trivial hr (fun _ _ _ => trivial)
    (P := fun done s₁ => Mapped F m virt phys r ty done s s₁)
    (Q := fun err s₁ => err ≠ .misaligned ∧
      ∃ k, k.toNat < size.toNat ∧ Mapped F m virt phys r ty k s s₁) ?_ hm (fun v _ => ?_) h
  · intro done level out s₁ s₂ made hm₁ hP hturn
    obtain ⟨hok, herr⟩ := hturn.mapped hr hm₁ hP
    refine ⟨hok, fun err hout => ⟨?_, done, ?_, herr err hout⟩⟩
    · rintro rfl
      exact hturn.failed _ hout
    · exact hturn.lt
  · exact ⟨fun hin => absurd hin (by simp), fun _ => rfl⟩

/-- One call takes over the addresses of its range, and no others. -/
theorem mapAs_translate (hL : F.Lawful held) (hm : Built F held true (fun _ => True) m s)
    {virt phys size : UInt64} {r : Rights} {ty : MemoryType} (hr : InRange virt phys size)
    (h : m.mapAs F virt phys size r ty s = (.ok (), s')) :
    Built F held true (fun _ => True) m s' ∧ ∀ v, Canonical v →
      (m.translate F v s').map Translation.answer =
        if virt.toNat ≤ v.toNat ∧ v.toNat < virt.toNat + size.toNat then
          some (phys + (v - virt), r, ty)
        else (m.translate F v s).map Translation.answer := by
  obtain ⟨hm', hok, -⟩ := mapAs_mapped hL hm hr h
  refine ⟨hm', fun v hv => ?_⟩
  obtain ⟨hin, hout⟩ := hok rfl v hv
  split
  · next hcov => exact hin hcov
  · next hcov => rw [hout hcov]

end

/-! ### Calls -/

/-- A call of `map` or of `map_device`. -/
structure Call where
  virt : UInt64
  phys : UInt64
  size : UInt64
  rights : Rights
  memoryType : MemoryType

namespace Call

def Covers (c : Call) (v : UInt64) : Prop :=
  c.virt.toNat ≤ v.toNat ∧ v.toNat < c.virt.toNat + c.size.toNat

instance (c : Call) (v : UInt64) : Decidable (c.Covers v) := inferInstanceAs (Decidable (_ ∧ _))

/-- What the call asks for at `v`. -/
def answer (c : Call) (v : UInt64) : UInt64 × Rights × MemoryType :=
  (c.phys + (v - c.virt), c.rights, c.memoryType)

def perform {σ : Type} (F : FrameSource σ) (m : Mapper) (c : Call) (s : σ) : Except MapError Unit × σ :=
  match c.memoryType with
  | .normal => m.map F c.virt c.phys c.size c.rights s
  | .device => m.mapDevice F c.virt c.phys c.size c.rights s

/-- The calls in turn, up to the first that fails. -/
def performAll {σ : Type} (F : FrameSource σ) (m : Mapper) : List Call → σ → Except MapError Unit × σ
  | [], s => (.ok (), s)
  | c :: cs, s =>
    match c.perform F m s with
    | (.error e, s) => (.error e, s)
    | (.ok (), s) => performAll F m cs s

/-- The partial map the calls build: the last one that covers an address answers for it. -/
def lastAnswer (cs : List Call) (v : UInt64) : Option (UInt64 × Rights × MemoryType) :=
  (cs.reverse.find? (·.Covers v)).map (·.answer v)

end Call

section

variable {σ : Type} {F : FrameSource σ} {held : σ → Set UInt64} {s s' : σ} {m : Mapper}

theorem new_built (hL : F.Lawful held) {gib : Bool} (h : Mapper.new F gib s = (.ok m, s')) :
    Built F held true (fun _ => True) m s' ∧ ∀ v, m.translate F v s' = none := by
  unfold Mapper.new at h
  split at h
  · cases h
  · next root s₁ ha =>
    obtain ⟨hm, rfl⟩ := Prod.ext_iff.mp h
    obtain rfl := Except.ok.inj hm
    dsimp only
    obtain ⟨halign, hbound, -, hheld, hblank, -⟩ := hL.alloc s root s₁ ha
    have hroot : Framed root := framed_iff.mpr ⟨halign, hbound⟩
    obtain ⟨hcells, hholds, hnone⟩ :=
      @blank_tree true (F.read s₁) (fun _ => True) root (fun _ => []) hroot hblank trivial rfl
    have htables : (tree true).tables (F.read s₁) 4 (rootEntry root) = [root] := hcells
    have hbuilt : Built F held true (fun _ => True) ⟨root, gib⟩ s₁ := by
      refine ⟨hroot, ?_, ?_, hholds⟩
      · rw [htables]
        exact List.nodup_singleton root
      · rw [htables, hheld]
        simp
    refine ⟨hbuilt, fun v => ?_⟩
    rw [hbuilt.translate (.inl rfl), hnone v (.inl rfl)]
    rfl

theorem perform_eq (c : Call) :
    c.perform F m s = m.mapAs F c.virt c.phys c.size c.rights c.memoryType s := by
  unfold Call.perform
  split <;> simp_all [Mapper.map, Mapper.mapDevice]

theorem performAll_append (cs ds : List Call) : Call.performAll F m (cs ++ ds) s =
    match Call.performAll F m cs s with
    | (.error e, s) => (.error e, s)
    | (.ok (), s) => Call.performAll F m ds s := by
  induction cs generalizing s with
  | nil => rfl
  | cons c cs ih =>
    rw [List.cons_append, Call.performAll, Call.performAll]
    rcases c.perform F m s with ⟨_ | _, s₁⟩
    · rfl
    · exact ih

theorem lastAnswer_cons (c : Call) (cs : List Call) (v : UInt64) : Call.lastAnswer (c :: cs) v =
    (Call.lastAnswer cs v).or (if c.Covers v then some (c.answer v) else none) := by
  rw [Call.lastAnswer, Call.lastAnswer, List.reverse_cons, List.find?_append]
  cases cs.reverse.find? (·.Covers v) with
  | some d => rfl
  | none =>
    by_cases hc : c.Covers v
    · simp [hc]
    · simp [hc]

theorem performAll_translate (hL : F.Lawful held) {cs : List Call}
    (hcs : ∀ c ∈ cs, InRange c.virt c.phys c.size) (hm : Built F held true (fun _ => True) m s)
    (h : Call.performAll F m cs s = (.ok (), s')) {v : UInt64} (hv : Canonical v) :
    (m.translate F v s').map Translation.answer =
      (Call.lastAnswer cs v).or ((m.translate F v s).map Translation.answer) := by
  induction cs generalizing s with
  | nil =>
    obtain rfl := (Prod.ext_iff.mp h).2
    rfl
  | cons c cs ih =>
    rw [Call.performAll] at h
    split at h
    · cases h
    · next s₁ hc =>
      rw [perform_eq] at hc
      obtain ⟨hm₁, hone⟩ := mapAs_translate hL hm (hcs c List.mem_cons_self) hc
      rw [ih (fun d hd => hcs d (List.mem_cons_of_mem c hd)) hm₁ h, hone v hv, lastAnswer_cons,
        Option.or_assoc]
      congr 1
      by_cases hcov : c.Covers v
      · rw [if_pos hcov, if_pos (show _ ∧ _ from hcov)]
        rfl
      · rw [if_neg hcov, if_neg (show ¬(_ ∧ _) from hcov)]
        rfl

/-- After any successful calls on a new tree, every canonical address is answered for by the
last call that covers it, and by nothing when none does. -/
theorem mapper_refines (hL : F.Lawful held) (gib : Bool) (s₀ s₁ : σ)
    (hnew : Mapper.new F gib s₀ = (.ok m, s₁)) (cs : List Call)
    (hcs : ∀ c ∈ cs, InRange c.virt c.phys c.size)
    (hrun : Call.performAll F m cs s₁ = (.ok (), s')) (v : UInt64) (hv : Canonical v) :
    (m.translate F v s').map Translation.answer = Call.lastAnswer cs v := by
  obtain ⟨hm, hnone⟩ := new_built hL hnew
  rw [performAll_translate hL hcs hm hrun hv, hnone v]
  simp

end

/-- Whole pages from an arbitrary base, handed out in order and never taken back. -/
structure FakeMemory where
  pages : ℕ
  words : UInt64 → ℕ → UInt64

namespace FakeMemory

def empty : FakeMemory := ⟨0, fun _ _ => 0xFFFFFFFFFFFFFFFF⟩

def frame (n : ℕ) : UInt64 := 0x100000000 + UInt64.ofNat (4096 * n)

def source : FrameSource FakeMemory where
  allocTable s :=
    if s.pages < 1024 then
      (some (frame s.pages), ⟨s.pages + 1, Function.update s.words (frame s.pages) fun _ => 0⟩)
    else (none, s)
  read s t i := s.words t i
  write s t i e := { s with words := Function.update s.words t (Function.update (s.words t) i e) }

def held (s : FakeMemory) : Set UInt64 := {t | ∃ n < s.pages, n < 1024 ∧ t = frame n}

theorem frame_toNat {n : ℕ} (h : n < 1024) : (frame n).toNat = 2 ^ 32 + 4096 * n := by
  rw [frame, UInt64.toNat_add, UInt64.toNat_ofNat_of_lt' (by simp [UInt64.size]; omega)]
  simp
  omega

theorem lawful : source.Lawful held where
  alloc s p s' h := by
    simp only [source] at h
    split at h
    · next hlt =>
      obtain ⟨hp, rfl⟩ := Prod.ext_iff.mp h
      obtain rfl := Option.some.inj hp
      have hnat := frame_toNat hlt
      have hnew : frame s.pages ∉ held s := by
        rintro ⟨n, hn, hn', heq⟩
        have := congrArg UInt64.toNat heq
        rw [hnat, frame_toNat hn'] at this
        omega
      refine ⟨by omega, by omega, hnew, ?_, fun i _ => ?_, fun t ht i _ => ?_⟩
      · ext t
        simp only [held, Set.mem_ofPred_eq, Set.mem_insert_iff]
        constructor
        · rintro ⟨n, hn, hn', rfl⟩
          obtain rfl | hne := eq_or_ne n s.pages
          · exact .inl rfl
          · exact .inr ⟨n, by omega, hn', rfl⟩
        · rintro (rfl | ⟨n, hn, hn', rfl⟩)
          · exact ⟨s.pages, by omega, hlt, rfl⟩
          · exact ⟨n, by omega, hn', rfl⟩
      · simp [source]
      · have hne : t ≠ frame s.pages := fun heq => hnew (heq ▸ ht)
        simp [source, hne]
    · cases h
  exhausted s s' h := by
    simp only [source] at h
    split at h
    · cases h
    · obtain rfl := (Prod.ext_iff.mp h).2
      exact ⟨rfl, fun _ _ _ _ => rfl⟩
  write s t i e _ _ := by
    refine ⟨rfl, fun u _ j _ => ?_⟩
    by_cases hu : u = t
    · subst hu
      by_cases hj : j = i
      · simp [source, hj]
      · simp [source, hj]
    · simp [source, hu]

end FakeMemory

/-- Three pages for ring 3, and two megabytes of device registers. -/
def twoCalls : List Call :=
  [⟨0x400000, 0x8000, 0x3000, ⟨true, false, true⟩, .normal⟩,
    ⟨0xFFFF900000000000, 0xFEE00000, 0x200000, Rights.rw, .device⟩]

theorem mapper_refines_two :
    let m : Mapper := ⟨0x100000000, true⟩
    let s := (Mapper.new FakeMemory.source true .empty).2
    (m.translate FakeMemory.source 0x401ABC (Call.performAll FakeMemory.source m twoCalls s).2).map
      Translation.answer = Call.lastAnswer twoCalls 0x401ABC := by
  intro m s
  have hok : (Call.performAll FakeMemory.source m twoCalls s).1 = .ok () := by decide +kernel
  have hcalls : ∀ c ∈ twoCalls, InRange c.virt c.phys c.size := by
    simp only [twoCalls, List.forall_mem_cons, List.not_mem_nil, false_implies, implies_true,
      and_true]
    constructor <;> constructor <;> decide
  exact mapper_refines FakeMemory.lawful true .empty s rfl twoCalls hcalls
    (Prod.ext hok (Eq.refl _)) 0x401ABC (by unfold Canonical; decide)

end StarOs.Paging
