import StarOs.Boot.LinearMap
import StarOs.Kernel.VmInit

/-! The screen in the kernel's tree. It has a call of its own when it ends beyond the linear map,
over whatever was mapped there before, and `verify` looks at the tree that leaves. -/

namespace StarOs.Kernel

open Bootinfo Library Paging

section

variable {fb : Framebuffer} {linear : UInt64}

/-! ### The screen's own call -/

theorem screenEnd_toNat (hfb : fb.bytes.toNat = 0 ∨ fb.Addressable) :
    (screenEnd fb).toNat = fb.phys.toNat + fb.bytes.toNat := by
  have hphys := fb.phys.toNat_lt
  have hlt : fb.phys.toNat + fb.bytes.toNat < 2 ^ 64 := by
    obtain hnone | ⟨-, hend⟩ := hfb <;> omega
  rw [screenEnd, if_pos hlt, UInt64.toNat_add, Nat.mod_eq_of_lt hlt]

/-- The call for a screen that has addresses. -/
structure ScreenCall (fb : Framebuffer) : Prop where
  range : InRange (screenCall fb).virt (screenCall fb).phys (screenCall fb).size
  virt : (screenCall fb).virt.toNat = physMapBase.toNat + fb.base.toNat
  le_size : fb.phys.toNat + fb.bytes.toNat ≤ fb.base.toNat + (screenCall fb).size.toNat
  reach : fb.base.toNat + (screenCall fb).size.toNat ≤ 2 ^ 47

theorem screenCall_spec (hfb : fb.Addressable) : ScreenCall fb := by
  have hpages := hfb.pages
  have hends := screenEnd_toNat (.inr hfb)
  have hP := toNat_physMapBase
  have hbase := hpages.base_aligned
  have hle := hpages.base_le
  have hvirt := hpages.virt
  obtain ⟨hphys, hend⟩ := hfb
  have hgap : (screenEnd fb - fb.base).toNat = fb.phys.toNat + fb.bytes.toNat - fb.base.toNat := by
    rw [UInt64.toNat_sub_of_le _ _ (UInt64.le_iff_toNat_le.mpr (by omega)), hends]
  have hpage : pageSize.toNat = 4096 := rfl
  obtain ⟨hmod, hlo, hhi⟩ := nextMultipleOf_spec (x := screenEnd fb - fb.base) (n := pageSize)
    (by omega) (by omega)
  have hsize : (screenCall fb).size = nextMultipleOf (screenEnd fb - fb.base) pageSize := rfl
  have hat : (screenCall fb).virt.toNat = physMapBase.toNat + fb.base.toNat := hvirt
  have hto : (screenCall fb).phys.toNat = fb.base.toNat := rfl
  rw [← hsize, hgap] at hlo hhi
  rw [← hsize] at hmod
  rw [hpage] at hmod hhi
  exact ⟨⟨by omega, by omega, hmod, .inr ⟨by omega, by omega⟩, by omega⟩, hat, by omega, by omega⟩

/-- The call for a screen without bytes is for the rest of its page. -/
theorem screenCall_small (hnone : fb.bytes.toNat = 0) :
    (screenCall fb).virt.toNat % 4096 = 0 ∧ (screenCall fb).phys.toNat % 4096 = 0 ∧
      ((screenCall fb).size.toNat = 0 ∨ (screenCall fb).size.toNat = 4096) := by
  have hbase := fb.base_toNat
  have hphys := fb.phys.toNat_lt
  have hends := screenEnd_toNat (.inl hnone)
  have hP : physMapBase.toNat = 4096 * (2 ^ 52 - 2 ^ 35) := rfl
  have hpage : pageSize.toNat = 4096 := rfl
  have hgap : (screenEnd fb - fb.base).toNat = fb.phys.toNat - fb.base.toNat := by
    rw [UInt64.toNat_sub_of_le _ _ (UInt64.le_iff_toNat_le.mpr (by omega)), hends, hnone]
    rfl
  obtain ⟨hmod, hlo, hhi⟩ := nextMultipleOf_spec (x := screenEnd fb - fb.base) (n := pageSize)
    (by omega) (by omega)
  have hsize : (screenCall fb).size = nextMultipleOf (screenEnd fb - fb.base) pageSize := rfl
  have hat : (screenCall fb).virt = physMapBase + fb.base := rfl
  have hto : (screenCall fb).phys = fb.base := rfl
  rw [← hsize] at hmod hlo hhi
  rw [hpage] at hmod hhi
  rw [hat, hto, UInt64.toNat_add]
  omega

theorem screenCall_answer (v : UInt64) :
    (screenCall fb).answer v = (v - physMapBase, Rights.rw, .normal) := by
  have hoff : fb.base + (v - (physMapBase + fb.base)) = v - physMapBase := by grind
  exact Prod.ext hoff rfl

/-- The call for the screen is made, for pages that the walk of `v` comes by. -/
def Meets (linear : UInt64) (fb : Framebuffer) (v : UInt64) : Prop :=
  linear < screenEnd fb ∧ behind (screenCall fb).virt v < (screenCall fb).size.toNat

instance {v : UInt64} : Decidable (Meets linear fb v) := inferInstanceAs (Decidable (_ ∧ _))

theorem meets_iff (hfb : fb.Addressable) {v : UInt64} (hv : Canonical v) :
    Meets linear fb v ↔ linear < screenEnd fb ∧ (screenCall fb).Covers v :=
  and_congr_right fun _ => behind_lt_iff (screenCall_spec hfb).range hv

/-- `init` does not look for the screen below the linear map. -/
theorem screenLast_ge (fb : Framebuffer) : physMapBase.toNat ≤ (screenLast fb).toNat := by
  have hP := toNat_physMapBase
  unfold screenLast physToVirt
  split
  · next hlt =>
    rw [UInt64.toNat_add, Nat.mod_eq_of_lt hlt]
    omega
  · decide

theorem screenLast_toNat (hsane : fb.isSane) (hphys : fb.phys.toNat ≤ 2 ^ 47)
    (hend : fb.phys.toNat + fb.bytes.toNat ≤ 2 ^ 47) :
    (screenLast fb).toNat = physMapBase.toNat + (fb.phys.toNat + fb.bytes.toNat - 1) := by
  have hpos : 0 < fb.phys.toNat := by
    simp only [Framebuffer.isSane, Bool.and_eq_true, decide_eq_true_eq] at hsane
    exact Nat.pos_of_ne_zero fun hzero => hsane.1.1.1 (UInt64.toNat_inj.mp hzero)
  have hP := toNat_physMapBase
  have hone : (1 : UInt64).toNat = 1 := rfl
  have hsum : (fb.phys + fb.bytes).toNat = fb.phys.toNat + fb.bytes.toNat := by
    rw [UInt64.toNat_add, Nat.mod_eq_of_lt (by omega)]
  have hlast : (fb.phys + fb.bytes - 1).toNat = fb.phys.toNat + fb.bytes.toNat - 1 := by
    rw [UInt64.toNat_sub_of_le _ _ (UInt64.le_iff_toNat_le.mpr (by rw [hsum]; omega)), hsum, hone]
  rw [screenLast, physToVirt, if_pos (by omega), UInt64.toNat_add, hlast,
    Nat.mod_eq_of_lt (by omega)]

/-- A screen without bytes beyond the linear map's addresses is looked for at the last of all. -/
theorem screenLast_eq (hnone : fb.bytes.toNat = 0) (hphys : 2 ^ 47 ≤ fb.phys.toNat) :
    (screenLast fb).toNat = 2 ^ 64 - 1 := by
  have hP := toNat_physMapBase
  have hone : (1 : UInt64).toNat = 1 := rfl
  have hlast : (fb.phys + fb.bytes - 1).toNat = fb.phys.toNat - 1 := by
    rw [UInt64.toNat_inj.mp (hnone.trans (show 0 = (0 : UInt64).toNat from rfl)), UInt64.add_zero,
      UInt64.toNat_sub_of_le _ _ (UInt64.le_iff_toNat_le.mpr (by omega)), hone]
  unfold screenLast physToVirt
  split
  · rw [UInt64.toNat_add, hlast, Nat.mod_eq_of_lt (by omega)]
    omega
  · rfl

end

/-- The address is in the section. -/
def InSection (sec : UInt64 × UInt64 × Rights) (a : ℕ) : Prop :=
  sec.1.toNat ≤ a ∧ a < sec.2.1.toNat

/-- The screens that the kernel's tree shows. -/
structure ScreenFits (gibPages : Bool) (img : ImageLayout) (kernelPhys linear : UInt64)
    (fb : Framebuffer) : Prop where
  addressed : fb.bytes.toNat = 0 ∨ fb.Addressable
  /-- The linear map ends before the guard page, and there is something at its beginning. -/
  guard : physMapBase.toNat + linear.toNat ≤ img.stackGuard.toNat
  first : linear ≠ 0 ∨ Meets linear fb physMapBase
  /-- Where two calls meet the later one uses no smaller page. -/
  pages : (allCalls img kernelPhys linear fb).Pairwise fun d c => c.FitsOver gibPages d
  /-- The screen's own call spares what must not be writable. -/
  image : ¬Meets linear fb img.here ∧
    (img.rodataStart < img.rodataEnd → ¬Meets linear fb img.rodataStart) ∧
      ¬Meets linear fb img.stackGuard
  /-- Where a section lies over a screen in the linear map, it is writable and is what was there. -/
  inside : screenEnd fb ≤ linear → ∀ i < fb.bytes.toNat, ∀ sec ∈ img.sections,
    InSection sec (physMapBase.toNat + (fb.phys.toNat + i)) →
      sec.2.2.write ∧ kernelPhys.toNat = window
  /-- For a screen without bytes `verify` looks at the byte before it. -/
  last : fb.bytes.toNat = 0 → Meets linear fb (screenLast fb) ∨
    (∃ sec ∈ img.sections, InSection sec (screenLast fb).toNat ∧ sec.2.2.write) ∨
      (∀ sec ∈ img.sections, ¬InSection sec (screenLast fb).toNat) ∧
        (screenLast fb).toNat < physMapBase.toNat + linear.toNat

section

variable {σ : Type} {F : FrameSource σ} {held : σ → Set UInt64} {mapper : Mapper}
  {img : ImageLayout} {kernelPhys linear : UInt64} {fb : Framebuffer} {s s' : σ} {v : UInt64}
  {res : Except MapError Unit}

/-! ### The tree after all calls -/

/-- The rights the calls leave at an address. -/
def treeRights (img : ImageLayout) (kernelPhys linear : UInt64) (fb : Framebuffer) (v : UInt64) :
    Option Rights :=
  if Meets linear fb v then some Rights.rw
  else (Call.lastAnswer (initCalls img kernelPhys linear) v).map fun a => a.2.1

theorem allCalls_range (halign : kernelPhys.toNat % 4096 = 0)
    (hphys : kernelPhys.toNat + img.size.toNat ≤ 2 ^ 52) (hlinear : linear.toNat % 4096 = 0)
    (hreach : linear.toNat ≤ 2 ^ 47) (hfb : fb.Addressable) :
    ∀ c ∈ allCalls img kernelPhys linear fb, InRange c.virt c.phys c.size := by
  intro c hc
  obtain hc | hc := List.mem_append.mp hc
  · exact initCalls_range img halign hphys hlinear hreach c hc
  · split at hc
    · obtain rfl := List.mem_singleton.mp hc
      exact (screenCall_spec hfb).range
    · exact absurd hc List.not_mem_nil

theorem allCalls_answer (hfb : fb.Addressable) (hv : Canonical v) :
    Call.lastAnswer (allCalls img kernelPhys linear fb) v =
      if Meets linear fb v then some (v - physMapBase, Rights.rw, .normal)
      else Call.lastAnswer (initCalls img kernelPhys linear) v := by
  have hmeets : Meets linear fb v ↔ linear < screenEnd fb ∧ (screenCall fb).Covers v :=
    meets_iff hfb hv
  unfold allCalls
  by_cases hown : screenEnd fb > linear
  · rw [if_pos hown, lastAnswer_concat, screenCall_answer]
    exact if_congr ((hmeets.trans (and_iff_right hown)).symm) rfl rfl
  · rw [if_neg hown, List.append_nil, if_neg fun hmeet => hown hmeet.1]

theorem answer_rights {o : Option Translation} :
    (o.map Translation.answer).map (fun a => a.2.1) = o.map Translation.rights := by
  cases o <;> rfl

/-- The tree of calls that are all in range. -/
theorem allCalls_translate {gib : Bool} {s₀ : σ} (hL : F.Lawful held)
    (halign : kernelPhys.toNat % 4096 = 0) (hphys : kernelPhys.toNat + img.size.toNat ≤ 2 ^ 52)
    (hlinear : linear.toNat % 4096 = 0) (hreach : linear.toNat ≤ 2 ^ 47) (hfb : fb.Addressable)
    (hnew : Mapper.new F gib s₀ = (.ok mapper, s))
    (h : Call.performAll F mapper (allCalls img kernelPhys linear fb) s = (.ok (), s'))
    (hv : Canonical v) : (mapper.translate F v s').map Translation.answer =
      if Meets linear fb v then some (v - physMapBase, Rights.rw, .normal)
      else Call.lastAnswer (initCalls img kernelPhys linear) v := by
  obtain ⟨hm, hnone⟩ := new_built hL hnew
  rw [performAll_translate hL (allCalls_range halign hphys hlinear hreach hfb) hm h hv, hnone v,
    allCalls_answer hfb hv]
  simp

theorem initCalls_above {c : Call} (hc : c ∈ initCalls img kernelPhys linear) (hcov : c.Covers v) :
    physMapBase.toNat ≤ v.toNat := by
  have hP := toNat_physMapBase
  have hK : kernelVma.toNat = 2 ^ 64 - 2 ^ 31 := rfl
  obtain rfl | hc := List.mem_cons.mp hc
  · exact hcov.1
  · obtain ⟨sec, hsec, hcall⟩ := mem_sectionCalls.mp hc
    have hin := ((sectionCall_spec hcall).2.2 v).mp hcov
    have hlo := (img.sections_spec.1 sec hsec).2.2.1
    omega

/-- The calls when the screen has no bytes and no addresses: its own is for one page, at most. -/
theorem smallCalls_spec {gib : Bool} {s₀ : σ} (hL : F.Lawful held)
    (hranges : ∀ c ∈ initCalls img kernelPhys linear, InRange c.virt c.phys c.size)
    (hguard : physMapBase.toNat + linear.toNat ≤ img.stackGuard.toNat)
    (hnone : fb.bytes.toNat = 0) (hhigh : 2 ^ 47 ≤ fb.phys.toNat)
    (hnew : Mapper.new F gib s₀ = (.ok mapper, s))
    (h : Call.performAll F mapper (allCalls img kernelPhys linear fb) s = (res, s'))
    (hres : res ≠ .error .outOfFrames) :
    (res = .ok () →
      (initCalls img kernelPhys linear).Pairwise (fun d c => c.FitsOver mapper.gibPages d) ∧
      ∀ v, Canonical v → rightsAt F mapper s' v = treeRights img kernelPhys linear fb v) ∧
    ((initCalls img kernelPhys linear).Pairwise (fun d c => c.FitsOver mapper.gibPages d) →
      Meets linear fb (screenLast fb) → res = .ok ()) := by
  obtain ⟨hm, htrans⟩ := new_built hL hnew
  obtain ⟨halign, haligned, hsize⟩ := screenCall_small hnone
  have hP := toNat_physMapBase
  have htop := img.stackGuard.toNat_lt
  have hown : screenEnd fb > linear := by
    rw [gt_iff_lt, UInt64.lt_iff_toNat_lt, screenEnd_toNat (.inl hnone)]
    omega
  have hmeets : ∀ v, Meets linear fb v ↔ (screenCall fb).size.toNat ≠ 0 ∧
      slot v / 4096 = slot (screenCall fb).virt / 4096 := fun v =>
    (and_iff_right hown).trans (behind_lt_small halign hsize)
  rw [allCalls, if_pos hown, performAll_append] at h
  rcases hinit : Call.performAll F mapper (initCalls img kernelPhys linear) s with ⟨err | _, s₁⟩ <;>
    rw [hinit] at h
  · obtain ⟨rfl, rfl⟩ := Prod.ext_iff.mp h
    exact ⟨by simp, fun hpair _ => (performAll_new_iff hL hranges hnew hinit hres).mpr hpair⟩
  have hpair := (performAll_new_iff hL hranges hnew hinit (by simp)).mp rfl
  have hm₁ := (performAll_keeps hL hm (new_noLarger hL hnew) hinit).1
  have hans : ∀ v, Canonical v → (mapper.translate F v s₁).map Translation.answer =
      Call.lastAnswer (initCalls img kernelPhys linear) v := by
    intro v hv
    rw [performAll_translate hL hranges hm hinit hv, htrans v]
    simp
  dsimp only at h
  rw [Call.performAll] at h
  rcases hone : (screenCall fb).perform F mapper s₁ with ⟨err | _, s₂⟩ <;> rw [hone] at h
  · obtain ⟨rfl, rfl⟩ := Prod.ext_iff.mp h
    refine ⟨by simp, fun _ hlast => ?_⟩
    obtain rfl | hmet := (perform_small hL hm₁ halign haligned hsize hone).2.2 err rfl
    · exact absurd rfl hres
    · -- nothing else is on the last page of all
      refine absurd (fun v hcov l hl => ?_) hmet
      have hw := screenLast_eq hnone hhigh
      have hdark : mapper.translate F (screenLast fb) s₁ = none := by
        refine Option.map_eq_none_iff.mp ((hans _ (.inr (by omega))).trans ?_)
        rw [initAnswer_beside, if_neg (by omega)]
        intro sec hsec
        have htop := (img.sections_spec.1 sec hsec).2.2.2
        have hlt := img.stackTop.toNat_lt
        omega
      have hpage : slot v / 4096 = slot (screenLast fb) / 4096 := by
        rw [((hmeets _).mp hlast).2]
        obtain ⟨hlo, hhi⟩ := hcov
        unfold slot
        omega
      rw [hm₁.translate (.inl rfl)] at hdark
      rw [pageLevel_eq, leafOf_page hpage, show leafOf _ _ _ _ = none from
        Option.map_eq_none_iff.mp hdark] at hl
      cases hl
  · obtain rfl : s₂ = s' := (Prod.ext_iff.mp h).2
    obtain rfl : .ok () = res := (Prod.ext_iff.mp h).1
    obtain ⟨hm₂, hgood, -⟩ := perform_small hL hm₁ halign haligned hsize hone
    refine ⟨fun _ => ⟨hpair, fun v hv => ?_⟩, fun _ _ => rfl⟩
    have hleaf := (hgood rfl).2 v
    unfold treeRights rightsAt
    by_cases hmeet : Meets linear fb v
    · rw [if_pos hmeet]
      rw [if_pos ((hmeets v).mp hmeet)] at hleaf
      obtain ⟨t, ht, -, hrights⟩ := translate_leafEntry hm₂ (Nat.zero_le 2) haligned rfl hleaf
      rw [ht, Option.map_some, hrights]
      rfl
    · rw [if_neg hmeet]
      rw [if_neg (mt (hmeets v).mpr hmeet)] at hleaf
      rw [translate_congr hm₁ hm₂ hleaf, ← hans v hv, answer_rights]

/-- Given the tables they ask for, the calls succeed when no two meet wrongly. -/
theorem allCalls_spec {gib : Bool} {s₀ : σ} (hL : F.Lawful held)
    (halign : kernelPhys.toNat % 4096 = 0) (hphys : kernelPhys.toNat + img.size.toNat ≤ 2 ^ 52)
    (hlinear : linear.toNat % 4096 = 0)
    (hguard : physMapBase.toNat + linear.toNat ≤ img.stackGuard.toNat)
    (hfb : fb.bytes.toNat = 0 ∨ fb.Addressable) (hnew : Mapper.new F gib s₀ = (.ok mapper, s))
    (h : Call.performAll F mapper (allCalls img kernelPhys linear fb) s = (res, s'))
    (hres : res ≠ .error .outOfFrames) :
    (res = .ok () →
      (allCalls img kernelPhys linear fb).Pairwise (fun d c => c.FitsOver mapper.gibPages d) ∧
      ∀ v, Canonical v → rightsAt F mapper s' v = treeRights img kernelPhys linear fb v) ∧
    ((allCalls img kernelPhys linear fb).Pairwise (fun d c => c.FitsOver mapper.gibPages d) →
      (2 ^ 47 ≤ fb.phys.toNat → Meets linear fb (screenLast fb)) → res = .ok ()) := by
  have hP := toNat_physMapBase
  have htop := img.stackGuard.toNat_lt
  have hreach : linear.toNat ≤ 2 ^ 47 := by omega
  by_cases hhigh : 2 ^ 47 ≤ fb.phys.toNat
  · have hnone : fb.bytes.toNat = 0 := hfb.resolve_right fun hfb => absurd hfb.1 (by omega)
    have hinit := initCalls_range img halign hphys hlinear hreach
    obtain ⟨hok, hmade⟩ := smallCalls_spec hL hinit hguard hnone hhigh hnew h hres
    -- the screen's own call is for addresses below the linear map
    have hapart :
        (initCalls img kernelPhys linear).Pairwise (fun d c => c.FitsOver mapper.gibPages d) ↔
        (allCalls img kernelPhys linear fb).Pairwise (fun d c => c.FitsOver mapper.gibPages d) := by
      rw [allCalls, List.pairwise_append]
      refine ⟨fun hpair => ⟨hpair, ?_, fun c hc d hd v hcov hcov' => ?_⟩, And.left⟩
      · split
        · exact List.pairwise_singleton _ _
        · exact .nil
      · have habove := initCalls_above hc hcov
        split at hd
        · obtain rfl := List.mem_singleton.mp hd
          have hvirt : (screenCall fb).virt.toNat =
              (physMapBase.toNat + fb.base.toNat) % 2 ^ 64 := UInt64.toNat_add _ _
          obtain ⟨-, -, hsize⟩ := screenCall_small hnone
          have hbase := fb.base_toNat
          have hlt := fb.phys.toNat_lt
          have hend := hcov'.2
          omega
        · exact absurd hd List.not_mem_nil
    exact ⟨fun hres => ⟨hapart.mp (hok hres).1, (hok hres).2⟩,
      fun hpair hlast => hmade (hapart.mpr hpair) (hlast hhigh)⟩
  · have hfb : fb.Addressable := hfb.elim (fun hnone => ⟨by omega, by omega⟩) id
    have hiff := performAll_new_iff hL (allCalls_range halign hphys hlinear hreach hfb) hnew h hres
    refine ⟨fun hok => ⟨hiff.mp hok, fun v hv => ?_⟩, fun hpair _ => hiff.mpr hpair⟩
    have htrans := allCalls_translate hL halign hphys hlinear hreach hfb hnew (hok ▸ h) hv
    rw [rightsAt, ← answer_rights, htrans, treeRights]
    split <;> rfl

/-! ### What `verify` finds there -/

/-- `verify` asks about canonical addresses only. -/
theorem Verified.congr {rights rights' : UInt64 → Option Rights} (hv : Verified rights img fb)
    (h : ∀ v, Canonical v → rights v = rights' v) : Verified rights' img fb := by
  have hP := toNat_physMapBase
  have hK : kernelVma.toNat = 2 ^ 64 - 2 ^ 31 := rfl
  have hzero : (0 : UInt64).toNat = 0 := rfl
  have hstarts := congrArg UInt64.toNat img.starts
  have htext := img.text
  have hrodata := img.rodata
  have hdata := img.data
  have hboot := img.boot
  have hguard := congrArg UInt64.toNat img.guard.1
  have hbelow := img.guard.2
  have hscreen := screenLast_ge fb
  exact {
    text := h img.here (.inr (by omega)) ▸ hv.text
    stack := h img.stack (.inr (by omega)) ▸ hv.stack
    linear := h physMapBase (.inr (by omega)) ▸ hv.linear
    screen := h (screenLast fb) (.inr (by omega)) ▸ hv.screen
    rodata := h img.rodataStart (.inr (by omega)) ▸ hv.rodata
    data := h img.dataStart (.inr (by omega)) ▸ hv.data
    zero := h 0 (.inl (by omega)) ▸ hv.zero
    guard := h img.stackGuard (.inr (by omega)) ▸ hv.guard }

theorem treeRights_section (halign : kernelPhys.toNat % 4096 = 0)
    (hphys : kernelPhys.toNat + img.size.toNat ≤ 2 ^ 52) {sec : UInt64 × UInt64 × Rights}
    (hsec : sec ∈ img.sections) (hin : InSection sec v.toNat) :
    treeRights img kernelPhys linear fb v =
      if Meets linear fb v then some Rights.rw else some sec.2.2 := by
  rw [treeRights, initAnswer_section halign hphys hsec hin.1 hin.2]
  rfl

theorem treeRights_beside (hout : ∀ sec ∈ img.sections, ¬InSection sec v.toNat) :
    treeRights img kernelPhys linear fb v =
      if Meets linear fb v then some Rights.rw
      else if physMapBase.toNat ≤ v.toNat ∧ v.toNat < physMapBase.toNat + linear.toNat then
        some Rights.rw
      else none := by
  rw [treeRights, initAnswer_beside hout]
  split
  · rfl
  · split <;> rfl

/-- What `verify` asks is a matter of which places the screen's own call leaves alone. -/
theorem verified_iff (halign : kernelPhys.toNat % 4096 = 0)
    (hphys : kernelPhys.toNat + img.size.toNat ≤ 2 ^ 52)
    (hguard : physMapBase.toNat + linear.toNat ≤ img.stackGuard.toNat) :
    Verified (treeRights img kernelPhys linear fb) img fb ↔
      (linear ≠ 0 ∨ Meets linear fb physMapBase) ∧
      (¬Meets linear fb img.here ∧
        (img.rodataStart < img.rodataEnd → ¬Meets linear fb img.rodataStart) ∧
          ¬Meets linear fb img.stackGuard) ∧
      ¬Meets linear fb 0 ∧
      ∃ r, treeRights img kernelPhys linear fb (screenLast fb) = some r ∧ r.write := by
  have hP := toNat_physMapBase
  have hK : kernelVma.toNat = 2 ^ 64 - 2 ^ 31 := rfl
  have hzero : (0 : UInt64).toNat = 0 := rfl
  have hstarts := congrArg UInt64.toNat img.starts
  have hboot := img.boot
  have htext := img.text
  have hro := img.rodata
  have hdata := img.data
  have hat := congrArg UInt64.toNat img.guard.1
  have hbelow := img.guard.2
  have hplaces := img.sections_spec.1
  have hinside : ∀ sec ∈ img.sections, ∀ v, InSection sec v.toNat →
      treeRights img kernelPhys linear fb v =
        if Meets linear fb v then some Rights.rw else some sec.2.2 := fun sec hsec v hin =>
    treeRights_section halign hphys hsec hin
  have hbeside : ∀ v, (∀ sec ∈ img.sections, ¬InSection sec v.toNat) →
      treeRights img kernelPhys linear fb v = if Meets linear fb v then some Rights.rw
        else if physMapBase.toNat ≤ v.toNat ∧ v.toNat < physMapBase.toNat + linear.toNat then
          some Rights.rw
        else none := fun v hout => treeRights_beside hout
  have hhere := hinside (img.textStart, img.textEnd, Rights.rx) List.mem_cons_self img.here
    ⟨htext.2.1, htext.2.2⟩
  have hstack := hinside (img.stackBottom, img.stackTop, Rights.rw)
    (by simp [ImageLayout.sections]) img.stack ⟨hboot.2.1, hboot.2.2⟩
  have hrw := hinside (img.dataStart, img.bssEnd, Rights.rw)
    (by simp [ImageLayout.sections]) img.dataStart ⟨le_rfl, hdata.2.2.2⟩
  have hrodata : img.rodataStart < img.rodataEnd →
      treeRights img kernelPhys linear fb img.rodataStart =
        if Meets linear fb img.rodataStart then some Rights.rw else some Rights.ro := fun hlt =>
    hinside (img.rodataStart, img.rodataEnd, Rights.ro) (by simp [ImageLayout.sections])
      img.rodataStart ⟨le_rfl, UInt64.lt_iff_toNat_lt.mp hlt⟩
  have hlinear := hbeside physMapBase fun sec hsec hin => by
      have := (hplaces sec hsec).2.2.1
      have := hin.1
      omega
  have hnull := hbeside 0 fun sec hsec hin => by
      have := (hplaces sec hsec).2.2.1
      have := hin.1
      omega
  have habsent := hbeside img.stackGuard fun sec hsec hin => by
      obtain ⟨hlo, hhi⟩ := hin
      simp only [ImageLayout.sections, List.mem_cons, List.not_mem_nil, or_false] at hsec
      obtain rfl | rfl | rfl | rfl := hsec <;> dsimp only at hlo hhi <;> omega
  have hsome : linear ≠ 0 ↔ 0 < linear.toNat := by
    rw [Nat.pos_iff_ne_zero, Ne, Ne, ← UInt64.toNat_inj]
    rfl
  constructor
  · intro h
    obtain ⟨r, hr, hx, hw⟩ := h.text
    obtain ⟨r', hr', -⟩ := h.linear
    have hnull' := h.zero
    have habsent' := h.guard
    rw [hhere] at hr
    rw [hlinear] at hr'
    rw [hnull] at hnull'
    rw [habsent] at habsent'
    refine ⟨?_, ⟨?_, fun hlt hmeet => ?_, ?_⟩, ?_, h.screen⟩
    · by_contra hnone
      rw [not_or] at hnone
      rw [if_neg hnone.2, if_neg (by rw [hsome] at hnone; omega)] at hr'
      cases hr'
    · intro hmeet
      rw [if_pos hmeet] at hr
      rw [← Option.some.inj hr] at hx
      cases hx
    · obtain ⟨r, hr, hw, -⟩ := h.rodata hlt
      rw [hrodata hlt, if_pos hmeet] at hr
      rw [← Option.some.inj hr] at hw
      exact hw rfl
    · intro hmeet
      rw [if_pos hmeet] at habsent'
      cases habsent'
    · intro hmeet
      rw [if_pos hmeet] at hnull'
      cases hnull'
  · rintro ⟨hfirst, ⟨himage, hread, hover⟩, hzero', hscreen⟩
    refine ⟨⟨Rights.rx, by rw [hhere, if_neg himage], rfl, by decide⟩, ⟨Rights.rw, ?_, rfl⟩,
      ⟨Rights.rw, ?_, rfl⟩, hscreen, fun hlt => ⟨Rights.ro, ?_, by decide, by decide⟩,
      ⟨Rights.rw, ?_, by decide⟩, ?_, ?_⟩
    · rw [hstack, ite_self]
    · rw [hlinear]
      obtain hpos | hmeet := hfirst
      · rw [if_pos (show physMapBase.toNat ≤ physMapBase.toNat ∧ _ by rw [hsome] at hpos; omega),
          ite_self]
      · rw [if_pos hmeet]
    · rw [hrodata hlt, if_neg (hread hlt)]
    · rw [hrw, ite_self]
    · rw [hnull, if_neg hzero', if_neg (by omega)]
    · rw [habsent, if_neg hover, if_neg (by omega)]

theorem not_meets_zero (hfb : fb.bytes.toNat = 0 ∨ fb.Addressable)
    (hlast : 2 ^ 47 ≤ fb.phys.toNat → Meets linear fb (screenLast fb)) : ¬Meets linear fb 0 := by
  intro hmeet
  have hP := toNat_physMapBase
  have hzero : (0 : UInt64).toNat = 0 := rfl
  by_cases hhigh : 2 ^ 47 ≤ fb.phys.toNat
  · have hnone : fb.bytes.toNat = 0 := hfb.resolve_right fun hfb => absurd hfb.1 (by omega)
    obtain ⟨halign, -, hsize⟩ := screenCall_small hnone
    have hw := screenLast_eq hnone hhigh
    have hfirst := ((behind_lt_small halign hsize).mp hmeet.2).2
    have hend := ((behind_lt_small halign hsize).mp (hlast hhigh).2).2
    unfold slot at hfirst hend
    omega
  · have hfb : fb.Addressable := hfb.elim (fun hnone => ⟨by omega, by omega⟩) id
    have hvirt := (screenCall_spec hfb).virt
    have hlo := ((meets_iff hfb (.inl (by omega))).mp hmeet).2.1
    omega

/-- Where the calls leave an address writable. -/
theorem writable_iff (halign : kernelPhys.toNat % 4096 = 0)
    (hphys : kernelPhys.toNat + img.size.toNat ≤ 2 ^ 52) (hv : physMapBase.toNat ≤ v.toNat) :
    (∃ r, treeRights img kernelPhys linear fb v = some r ∧ r.write) ↔ Meets linear fb v ∨
      (∃ sec ∈ img.sections, InSection sec v.toNat ∧ sec.2.2.write) ∨
        (∀ sec ∈ img.sections, ¬InSection sec v.toNat) ∧
          v.toNat < physMapBase.toNat + linear.toNat := by
  by_cases hmeet : Meets linear fb v
  · refine iff_of_true ⟨Rights.rw, ?_, rfl⟩ (.inl hmeet)
    rw [treeRights, if_pos hmeet]
  by_cases hin : ∃ sec ∈ img.sections, InSection sec v.toNat
  · obtain ⟨sec, hsec, hin⟩ := hin
    have hrights : ∀ sec' ∈ img.sections, InSection sec' v.toNat →
        treeRights img kernelPhys linear fb v = some sec'.2.2 := fun sec' hsec' hin' =>
      (treeRights_section halign hphys hsec' hin').trans (if_neg hmeet)
    constructor
    · rintro ⟨r, hr, hw⟩
      rw [hrights sec hsec hin] at hr
      rw [← Option.some.inj hr] at hw
      exact .inr (.inl ⟨sec, hsec, hin, hw⟩)
    · rintro (hmeet' | ⟨sec', hsec', hin', hw⟩ | ⟨hout, -⟩)
      · exact absurd hmeet' hmeet
      · exact ⟨sec'.2.2, hrights sec' hsec' hin', hw⟩
      · exact absurd hin (hout sec hsec)
  · have hout : ∀ sec ∈ img.sections, ¬InSection sec v.toNat := fun sec hsec hsec' =>
      hin ⟨sec, hsec, hsec'⟩
    rw [treeRights_beside hout, if_neg hmeet]
    constructor
    · rintro ⟨r, hr, -⟩
      split at hr
      · next hlt => exact .inr (.inr ⟨hout, hlt.2⟩)
      · cases hr
    · rintro (hmeet' | ⟨sec, hsec, hin', -⟩ | ⟨-, hlt⟩)
      · exact absurd hmeet' hmeet
      · exact absurd hin' (hout sec hsec)
      · exact ⟨Rights.rw, if_pos ⟨hv, hlt⟩, rfl⟩

/-- The bytes of a screen that has addresses, once the calls are made. -/
theorem shown_iff (halign : kernelPhys.toNat % 4096 = 0)
    (hphys : kernelPhys.toNat + img.size.toNat ≤ 2 ^ 52) (hfb : fb.Addressable)
    (htrans : ∀ v, Canonical v → (mapper.translate F v s).map Translation.answer =
      if Meets linear fb v then some (v - physMapBase, Rights.rw, .normal)
      else Call.lastAnswer (initCalls img kernelPhys linear) v) :
    fb.Shown F mapper s ↔ (screenEnd fb ≤ linear → ∀ i < fb.bytes.toNat, ∀ sec ∈ img.sections,
      InSection sec (physMapBase.toNat + (fb.phys.toNat + i)) →
        sec.2.2.write ∧ kernelPhys.toNat = window) := by
  have hP := toNat_physMapBase
  have hK : kernelVma.toNat = 2 ^ 64 - 2 ^ 31 := rfl
  have hw := window_eq
  have hends := screenEnd_toNat (.inr hfb)
  have hcall := screenCall_spec hfb
  have hvirt := hcall.virt
  have hlast := hcall.le_size
  have hle := hfb.pages.base_le
  have hreach := hfb.2
  have hsize := img.size_toNat
  by_cases hown : linear < screenEnd fb
  · refine iff_of_true (fun i hi => ?_) fun hin => absurd hown (UInt64.not_lt.mpr hin)
    have hv := Framebuffer.toNat_byte (show fb.phys.toNat + i < 2 ^ 47 by omega)
    rw [Boot.byteShown_iff hv, htrans _ (.inr (by omega)), if_pos]
    · refine ⟨_, rfl, ?_, rfl⟩
      rw [UInt64.toNat_sub_of_le _ _ (UInt64.le_iff_toNat_le.mpr (by omega))]
      omega
    · exact (meets_iff hfb (.inr (by omega))).mpr ⟨hown, by omega, by omega⟩
  · rw [UInt64.not_lt] at hown
    have hend := UInt64.le_iff_toNat_le.mp hown
    refine Iff.trans ?_ (forall_prop_of_true hown).symm
    refine forall_congr' fun i => forall_congr' fun hi => ?_
    obtain ⟨v, hv⟩ : ∃ v : UInt64, v.toNat = physMapBase.toNat + (fb.phys.toNat + i) :=
      ⟨_, Framebuffer.toNat_byte (by omega)⟩
    rw [Boot.byteShown_iff hv, htrans _ (.inr (by omega)),
      if_neg fun hmeet => absurd hmeet.1 (UInt64.not_lt.mpr hown), ← hv]
    by_cases hin : ∃ sec ∈ img.sections, InSection sec v.toNat
    · obtain ⟨sec, hsec, hin⟩ := hin
      have hans : ∀ sec' ∈ img.sections, InSection sec' v.toNat →
          Call.lastAnswer (initCalls img kernelPhys linear) v =
            some (kernelPhys + (v - img.textStart), sec'.2.2, .normal) := fun sec' hsec' hin' =>
        initAnswer_section halign hphys hsec' hin'.1 hin'.2
      -- the section answers from where the image is
      have hplace := img.sections_spec.1 sec hsec
      have hto : (kernelPhys + (v - img.textStart)).toNat =
          kernelPhys.toNat + (v.toNat - kernelVma.toNat) := by
        have := hin.1
        have := hin.2
        rw [img.starts, UInt64.toNat_add,
          UInt64.toNat_sub_of_le _ _ (UInt64.le_iff_toNat_le.mpr (by omega)),
          Nat.mod_eq_of_lt (by omega)]
      have habove := hin.1
      constructor
      · rintro ⟨a, ha, hphysical, hwrite⟩ sec' hsec' hin'
        rw [hans sec' hsec' hin'] at ha
        rw [← Option.some.inj ha] at hphysical hwrite
        rw [hto] at hphysical
        exact ⟨hwrite, by omega⟩
      · intro hall
        obtain ⟨hwrite, hat⟩ := hall sec hsec hin
        refine ⟨_, hans sec hsec hin, ?_, hwrite⟩
        rw [hto]
        omega
    · have hout : ∀ sec ∈ img.sections, ¬InSection sec v.toNat := fun sec hsec hsec' =>
        hin ⟨sec, hsec, hsec'⟩
      refine iff_of_true ⟨_, (initAnswer_beside hout).trans (if_pos (by omega)), ?_, rfl⟩
        fun sec hsec hin' => absurd hin' (hout sec hsec)
      rw [UInt64.toNat_sub_of_le _ _ (UInt64.le_iff_toNat_le.mpr (by omega))]
      omega

end

end StarOs.Kernel
