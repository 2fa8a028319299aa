import StarOs.Kernel.BuildSpace
import StarOs.Kernel.ScreenCall

/-! The screen in the loader's tree and in the kernel's. Each maps it apart from its linear map
when it judges that necessary; the loader asks where the screen begins, the kernel where it
ends, and a screen that crosses the end of the linear map is served by neither. -/

namespace StarOs.Kernel

open Bootinfo Library Paging

section

variable {σ : Type} {F : FrameSource σ} {held : σ → Set UInt64} {mapper : Mapper}
  {img : ImageLayout} {kernelPhys linear : UInt64} {fb : Framebuffer} {s s' : σ}

/-! ### The whole of `init` -/

theorem new_cases {gib : Bool} {out : Except MapError Mapper} (h : Mapper.new F gib s = (out, s')) :
    out = .error .outOfFrames ∨ ∃ root, out = .ok ⟨root, gib⟩ := by
  unfold Mapper.new at h
  split at h
  · exact .inl (Prod.ext_iff.mp h).1.symm
  · next root s₁ _ => exact .inr ⟨root, (Prod.ext_iff.mp h).1.symm⟩

/-- A linear map that reaches the guard page leaves it mapped. -/
theorem allCalls_guard {gib : Bool} {s₀ : σ} (hL : F.Lawful held)
    (hlinear : linear.toNat % 2 ^ 30 = 0)
    (hover : img.stackGuard.toNat < physMapBase.toNat + linear.toNat)
    (hnew : Mapper.new F gib s₀ = (.ok mapper, s))
    (h : Call.performAll F mapper (allCalls img kernelPhys linear fb) s = (.ok (), s')) :
    (rightsAt F mapper s' img.stackGuard).isSome := by
  have hP := toNat_physMapBase
  have hK : kernelVma.toNat = 2 ^ 64 - 2 ^ 31 := rfl
  have hstarts := congrArg UInt64.toNat img.starts
  have htext := img.text
  have hro := img.rodata
  have hdata := img.data
  have hat := congrArg UInt64.toNat img.guard.1
  have htop := img.stackGuard.toNat_lt
  obtain ⟨hm, -⟩ := new_built hL hnew
  have hsize := new_noLarger hL hnew
  rw [allCalls, initCalls, List.cons_append, Call.performAll] at h
  split at h
  · cases h
  next s₁ hfirst =>
  rw [perform_eq] at hfirst
  obtain ⟨hm₁, hsize₁, -⟩ := mapAs_keeps hL hm hsize hfirst
  have hlaps := (mapAs_wide hL hm hsize (by decide : physMapBase.toNat % 2 ^ 30 = 0) hlinear
    hfirst).2 rfl img.stackGuard
  obtain ⟨q, -, hleaf⟩ := hlaps.1 (by
    unfold behind slot
    omega)
  obtain ⟨hm', -, hkept⟩ := performAll_keeps hL hm₁ hsize₁ h
  have hsome := hkept img.stackGuard (by rw [hleaf]; rfl)
  unfold leafOf at hsome
  rw [rightsAt, hm'.translate (.inl rfl), Option.isSome_map, Option.isSome_map]
  exact hsome

/-- Given the tables it asks for, `init` builds a tree that shows the screen exactly when the
screen fits. -/
theorem init_shown_iff {gib : Bool} {highestRam : UInt64} (hL : F.Lawful held)
    (halign : kernelPhys.toNat % 4096 = 0) (hphys : kernelPhys.toNat + img.size.toNat ≤ 2 ^ 52)
    (hsane : fb.isSane) {out : Except String (Tables × UInt64)}
    (h : init F img gib kernelPhys highestRam (some fb) s = (out, s'))
    (hframes : none ∉ tableAnswers (init F.noted img gib kernelPhys highestRam (some fb)) s) :
    (∃ tables linear, out = .ok (tables, linear) ∧
      fb.Shown F (Mapper.adopt tables.root tables.gibPages) s') ↔
        ScreenFits gib img kernelPhys (linearBytes highestRam) fb := by
  have hres : out ≠ .error MapError.outOfFrames.asStr := by
    rw [init_answered, h] at hframes
    exact hframes
  have hwhole := linearBytes_whole highestRam
  generalize hlin : linearBytes highestRam = linear at *
  rw [init_eq, hlin] at h
  rcases hnew : Mapper.new F gib s with ⟨made, s₁⟩
  obtain rfl | ⟨root, rfl⟩ := new_cases hnew <;> rw [hnew] at h
  · exact absurd (Prod.ext_iff.mp h).1.symm hres
  rcases hcalls : Call.performAll F ⟨root, gib⟩ (allCalls img kernelPhys linear fb) s₁ with
    ⟨res, s₂⟩
  dsimp only at h
  rw [hcalls] at h
  have hfail : res ≠ .error .outOfFrames := by
    rintro rfl
    exact hres (Prod.ext_iff.mp h).1.symm
  have hbuilt : (∃ tables linear, out = .ok (tables, linear) ∧
      fb.Shown F (Mapper.adopt tables.root tables.gibPages) s') ↔
        res = .ok () ∧ Verified (rightsAt F ⟨root, gib⟩ s₂) img fb ∧ fb.Shown F ⟨root, gib⟩ s₂ := by
    rw [← verify_ok_iff]
    cases res with
    | error err =>
      obtain rfl : .error err.asStr = out := (Prod.ext_iff.mp h).1
      simp
    | ok =>
      rw [told] at h
      dsimp only at h
      cases hverify : verify F ⟨root, gib⟩ img (some fb) s₂ with
      | error err =>
        rw [hverify] at h
        obtain rfl := (Prod.ext_iff.mp h).1
        simp
      | ok =>
        rw [hverify] at h
        obtain ⟨rfl, rfl⟩ := Prod.ext_iff.mp h
        constructor
        · rintro ⟨tables, linear', hok, hshown⟩
          obtain ⟨rfl, rfl⟩ := Prod.ext_iff.mp (Except.ok.inj hok)
          exact ⟨rfl, rfl, hshown⟩
        · rintro ⟨-, -, hshown⟩
          exact ⟨_, _, rfl, hshown⟩
  rw [hbuilt]
  by_cases hfb : fb.bytes.toNat = 0 ∨ fb.Addressable
  swap
  · exact iff_of_false (fun hok => hfb hok.2.2.addressable) fun hfits => hfb hfits.addressed
  by_cases hguard : physMapBase.toNat + linear.toNat ≤ img.stackGuard.toNat
  swap
  · refine iff_of_false ?_ fun hfits => hguard hfits.guard
    rintro ⟨hok, hverified, -⟩
    have hsome := allCalls_guard hL hwhole (by omega) hnew (hok ▸ hcalls)
    rw [hverified.guard] at hsome
    cases hsome
  have hP := toNat_physMapBase
  have htop := img.stackGuard.toNat_lt
  obtain ⟨hleft, hmade⟩ := allCalls_spec hL halign hphys (by omega) hguard hfb hnew hcalls hfail
  -- a screen with bytes has addresses, and is shown where no section is in the way
  have hshown : res = .ok () → (fb.Shown F ⟨root, gib⟩ s₂ ↔
      (screenEnd fb ≤ linear → ∀ i < fb.bytes.toNat, ∀ sec ∈ img.sections,
        InSection sec (physMapBase.toNat + (fb.phys.toNat + i)) →
          sec.2.2.write ∧ kernelPhys.toNat = window)) := by
    intro hok
    obtain hnone | hfb := hfb
    · refine iff_of_true (fun i hi => ?_) fun _ i hi => ?_ <;> omega
    · exact shown_iff halign hphys hfb fun v hv => allCalls_translate hL halign hphys (by omega)
        (by omega) hfb hnew (hok ▸ hcalls) hv
  have hlast : fb.bytes.toNat = 0 →
      ((∃ r, treeRights img kernelPhys linear fb (screenLast fb) = some r ∧ r.write) ↔ _) :=
    fun _ => writable_iff halign hphys (screenLast_ge fb)
  constructor
  · rintro ⟨hok, hverified, hbytes⟩
    obtain ⟨hpages, hrights⟩ := hleft hok
    obtain ⟨hfirst, himage, -, hscreen⟩ := (verified_iff halign hphys hguard).mp
      (hverified.congr hrights)
    exact ⟨hfb, hguard, hfirst, hpages, himage, (hshown hok).mp hbytes,
      fun hnone => (hlast hnone).mp hscreen⟩
  · intro hfits
    have htail : 2 ^ 47 ≤ fb.phys.toNat → Meets linear fb (screenLast fb) := by
      intro hhigh
      have hnone : fb.bytes.toNat = 0 := hfb.resolve_right fun hfb => absurd hfb.1 (by omega)
      have hw := screenLast_eq hnone hhigh
      obtain hmeet | ⟨sec, hsec, hin, -⟩ | ⟨-, hlt⟩ := hfits.last hnone
      · exact hmeet
      · have hend := (img.sections_spec.1 sec hsec).2.2.2
        have hlt := img.stackTop.toNat_lt
        have := hin.2
        omega
      · omega
    have hok := hmade hfits.pages htail
    have hrights := (hleft hok).2
    have hbytes := (hshown hok).mpr hfits.inside
    refine ⟨hok, Verified.congr ((verified_iff halign hphys hguard).mpr ⟨hfits.first, hfits.image,
      not_meets_zero hfb htail, ?_⟩) fun v hv => (hrights v hv).symm, hbytes⟩
    obtain hnone | hpos := Nat.eq_zero_or_pos fb.bytes.toNat
    · exact (hlast hnone).mpr (hfits.last hnone)
    · -- `verify` looks at the last byte, which is shown
      obtain ⟨hphysical, hend⟩ := hfb.resolve_left (by omega)
      obtain ⟨v, t, hv, ht, -, hwrite⟩ := hbytes (fb.bytes.toNat - 1) (by omega)
      obtain rfl : v = screenLast fb := UInt64.toNat_inj.mp (by
        rw [hv, screenLast_toNat hsane (by omega) hend]
        omega)
      refine ⟨t.rights, ?_, hwrite⟩
      rw [← hrights _ (.inr (by omega)), rightsAt, ht]
      rfl

end

section

variable {σ τ : Type} {F : FrameSource σ} {held : σ → Set UInt64} {G : FrameSource τ}
  {heldG : τ → Set UInt64} {elf : Elf64.Elf} {img : ImageLayout} {fb : Framebuffer}
  {tables : Boot.PageTables} {gib gibG : Bool} {bootPhys kernelPhys highestRam : UInt64}
  {map : Slice} {descriptorSize highest : ℕ} {s s₁ s₂ : σ} {k k' : τ}

/-- Given the tables they ask for, the loader makes its maps and shows the screen in them, and the
kernel builds its tree and shows the screen there, each exactly when the screen fits. -/
theorem screen_shown_iff (hL : F.Lawful held) (hG : G.Lawful heldG)
    (hboot : bootPhys.toNat % 4096 = 0) (hbootEnd : ∀ base size,
      elf.loadSpan = .ok (base, size) → bootPhys.toNat + size.toNat ≤ 2 ^ 52)
    (hkernel : kernelPhys.toNat % 4096 = 0)
    (hkernelEnd : kernelPhys.toNat + img.size.toNat ≤ 2 ^ 52) (hsane : fb.isSane)
    (hprobe : highestRamAddress map descriptorSize Boot.gib.toNat = .ok highest)
    (hplace : Boot.placeImage F gib elf bootPhys s = (.ok tables, s₁))
    {res : Except MapError UInt64}
    (hmaps : Boot.mapMemory F tables (Boot.mappedBytes highest) fb s₁ = (res, s₂))
    (hframes : none ∉ tableAnswers (Boot.mapMemory F.noted tables (Boot.mappedBytes highest) fb) s₁)
    {out : Except String (Tables × UInt64)}
    (hinit : init G img gibG kernelPhys highestRam (some fb) k = (out, k'))
    (hframesG : none ∉ tableAnswers (init G.noted img gibG kernelPhys highestRam (some fb)) k) :
    (((∃ extra, res = .ok extra) ∧ fb.Shown F tables s₂) ↔
      Boot.ScreenFits F tables (Boot.mappedBytes highest) fb s₁) ∧
    ((∃ tables linear, out = .ok (tables, linear) ∧
      fb.Shown G (Mapper.adopt tables.root tables.gibPages) k') ↔
        ScreenFits gibG img kernelPhys (linearBytes highestRam) fb) := by
  obtain ⟨hm, hsize, -⟩ := Boot.placeImage_spec hL hboot hbootEnd hplace
  exact ⟨Boot.mapMemory_shown_iff hL hm hsize (Boot.mappedBytes_whole hprobe) hsane hmaps hframes,
    init_shown_iff hG hkernel hkernelEnd hsane hinit hframesG⟩

end

/-! ### A screen on either side of 4 GiB -/

/-- One read-execute page at the kernel's base. -/
def bareKernel : Slice where
  bytes := elfHeader [0, 0, 0, 0x80, 0xFF, 0xFF, 0xFF, 0xFF] 1 ++
    [1, 0, 0, 0, 5, 0, 0, 0, 0, 0, 0, 0, 0, 0, 0, 0, 0, 0, 0, 0x80, 0xFF, 0xFF, 0xFF, 0xFF,
      0, 0, 0, 0, 0, 0, 0, 0, 0, 0, 0, 0, 0, 0, 0, 0, 0, 0x10, 0, 0, 0, 0, 0, 0,
      0, 0x10, 0, 0, 0, 0, 0, 0]
  length_le := by decide

/-- Sections of one page each, and the boot stack behind its guard page. -/
def bareLayout : ImageLayout where
  textStart := 0xFFFFFFFF80000000
  textEnd := 0xFFFFFFFF80001000
  rodataStart := 0xFFFFFFFF80001000
  rodataEnd := 0xFFFFFFFF80002000
  dataStart := 0xFFFFFFFF80002000
  bssEnd := 0xFFFFFFFF80003000
  stackGuard := 0xFFFFFFFF80003000
  stackBottom := 0xFFFFFFFF80004000
  stackTop := 0xFFFFFFFF80014000
  here := 0xFFFFFFFF80000800
  stack := 0xFFFFFFFF80013F00
  starts := rfl
  text := by decide
  rodata := by decide
  data := by decide
  guard := by decide
  boot := by decide

/-- No memory at all, and so 4 GiB mapped. -/
def emptyMap : Slice := ⟨[], by decide⟩

/-- Two rows of 1024 pixels, one on either side of 4 GiB. -/
def crossingScreen : Framebuffer := ⟨0xFFFFF000, 1024, 2, 4096⟩

/-- The same two rows beyond the kernel's image. -/
def highScreen : Framebuffer := ⟨0x7FFFC0000000, 1024, 2, 4096⟩

/-- The loader's two steps over this image and this memory. -/
structure LoaderRun (fb : Framebuffer) (elf : Elf64.Elf) (highest : ℕ) (tables : Boot.PageTables)
    (s₁ : FakeMemory) (extra : UInt64) (s₂ : FakeMemory) : Prop where
  parsed : Elf64.Elf.parse bareKernel = .ok elf
  probed : highestRamAddress emptyMap 40 Boot.gib.toNat = .ok highest
  placed : Boot.placeImage FakeMemory.source true elf 0x200000 .empty = (.ok tables, s₁)
  mapped : Boot.mapMemory FakeMemory.source tables (Boot.mappedBytes highest) fb s₁ =
    (.ok extra, s₂)

/-- What the trees before and after the maps say of addresses. -/
def afterLoader (fb : Framebuffer) (before after : List UInt64) :
    Option (List (Option Translation) × List (Option Translation)) :=
  match Elf64.Elf.parse bareKernel, highestRamAddress emptyMap 40 Boot.gib.toNat with
  | .ok elf, .ok highest =>
    match Boot.placeImage FakeMemory.source true elf 0x200000 .empty with
    | (.ok tables, s₁) =>
      match Boot.mapMemory FakeMemory.source tables (Boot.mappedBytes highest) fb s₁ with
      | (.ok _, s₂) => some (before.map (tables.translate FakeMemory.source · s₁),
          after.map (tables.translate FakeMemory.source · s₂))
      | _ => none
    | _ => none
  | _, _ => none

theorem exists_loaderRun {before after : List UInt64} {said said' : List (Option Translation)}
    (h : afterLoader fb before after = some (said, said')) :
    ∃ elf highest tables s₁ extra s₂, LoaderRun fb elf highest tables s₁ extra s₂ ∧
      before.map (tables.translate FakeMemory.source · s₁) = said ∧
        after.map (tables.translate FakeMemory.source · s₂) = said' := by
  unfold afterLoader at h
  split at h
  · next elf highest hparse hprobe =>
    split at h
    · next tables s₁ hplace =>
      split at h
      · next extra s₂ hmap =>
        obtain ⟨hbefore, hafter⟩ := Prod.ext_iff.mp (Option.some.inj h)
        exact ⟨elf, highest, tables, s₁, extra, s₂, ⟨hparse, hprobe, hplace, hmap⟩, hbefore, hafter⟩
      · cases h
    · cases h
  · cases h

/-- The second row is nowhere in the loader's tree, and the kernel's tree is not built. -/
theorem crossing_screen_lost : crossingScreen.isSane ∧
    crossingScreen.phys.toNat + crossingScreen.bytes.toNat < 2 ^ 64 ∧
    (∃ elf highest tables s₁ extra s₂,
      LoaderRun crossingScreen elf highest tables s₁ extra s₂ ∧
        ¬crossingScreen.Shown FakeMemory.source tables s₂) ∧
    (init FakeMemory.source bareLayout true 0x200000 0 (some crossingScreen) .empty).1 =
      .error "mapping collides with an existing large page" := by
  refine ⟨by decide, by decide, ?_, ?_⟩
  · obtain ⟨elf, highest, tables, s₁, extra, s₂, hrun, -, hlost⟩ := exists_loaderRun
      (show afterLoader crossingScreen [] [0xFFFF800100000000] = some ([], [none]) by
        decide +kernel)
    refine ⟨elf, highest, tables, s₁, extra, s₂, hrun, fun hshown => ?_⟩
    obtain ⟨v, t, hv, ht, -⟩ := hshown 4096 (by decide)
    obtain rfl : v = 0xFFFF800100000000 := UInt64.toNat_inj.mp hv
    exact absurd (ht.symm.trans (List.cons.inj hlost).1) nofun
  · have hfail : (match (init FakeMemory.source bareLayout true 0x200000 0 (some crossingScreen)
        .empty).1 with
      | .error e => e == "mapping collides with an existing large page"
      | .ok _ => false) = true := by decide +kernel
    split at hfail
    · next e he => rw [he, beq_iff_eq.mp hfail]
    · cases hfail

theorem bareKernel_fits {elf : Elf64.Elf} (hparse : Elf64.Elf.parse bareKernel = .ok elf)
    {base size : UInt64} (h : elf.loadSpan = .ok (base, size)) :
    (0x200000 : UInt64).toNat + size.toNat ≤ 2 ^ 52 := by
  have hsize : (match Elf64.Elf.parse bareKernel with
      | .ok elf => match elf.loadSpan with
        | .ok (_, size) => decide ((0x200000 : UInt64).toNat + size.toNat ≤ 2 ^ 52)
        | .error _ => true
      | .error _ => true) = true := by decide +kernel
  rw [hparse] at hsize
  dsimp only at hsize
  rw [h] at hsize
  exact of_decide_eq_true hsize

theorem highScreen_init : ∃ tables linear k', init FakeMemory.source bareLayout true 0x200000 0
    (some highScreen) .empty = (.ok (tables, linear), k') := by
  have hok : (init FakeMemory.source bareLayout true 0x200000 0 (some highScreen) .empty).1.toOption
      |>.isSome := by decide +kernel
  generalize init FakeMemory.source bareLayout true 0x200000 0 (some highScreen) .empty = done at *
  obtain ⟨_ | ⟨tables, linear⟩, k'⟩ := done
  · cases hok
  · exact ⟨tables, linear, k', rfl⟩

/-- Its calls in the kernel's tree do not meet. -/
theorem highScreen_fits : ScreenFits true bareLayout 0x200000 (linearBytes 0) highScreen where
  addressed := .inr (by unfold Framebuffer.Addressable; decide)
  guard := by decide
  first := .inl (by decide)
  pages := by
    have hapart : (allCalls bareLayout 0x200000 (linearBytes 0) highScreen).Pairwise fun d c =>
        d.virt.toNat + d.size.toNat ≤ c.virt.toNat ∨
          c.virt.toNat + c.size.toNat ≤ d.virt.toNat := by
      decide +kernel
    refine hapart.imp fun hapart v hd hc => ?_
    obtain ⟨hlo, hhi⟩ := hd
    obtain ⟨hlo', hhi'⟩ := hc
    omega
  image := by decide +kernel
  inside hle := absurd hle (by decide)
  last hnone := absurd hnone (by decide)

/-- The pages the loader maps it at are free after the image is placed. -/
theorem highScreen_clear {held : FakeMemory → Set UInt64} {tables : Boot.PageTables}
    {s : FakeMemory} (hm : Built FakeMemory.source held true (fun _ => True) tables s)
    (hdark : [0x7FFFC0000000, 0x7FFFC0001000, 0xFFFFFFFFC0000000, 0xFFFFFFFFC0001000].map
      (tables.translate FakeMemory.source · s) = [none, none, none, none]) :
    ∀ c ∈ Boot.screenCalls highScreen, c.Clear FakeMemory.source tables s := by
  intro c hc v hcov l hl
  simp only [List.map_cons, List.map_nil, List.cons.injEq, and_true] at hdark
  obtain ⟨hlow, hlow', hhigh, hhigh'⟩ := hdark
  have hpage : ∀ p : UInt64, tables.translate FakeMemory.source p s = none →
      slot v / 4096 ≠ slot p / 4096 := by
    intro p hp hsame
    rw [hm.translate (.inl rfl)] at hp
    rw [pageLevel_eq, leafOf_page hsame, show leafOf _ _ _ _ = none from
      Option.map_eq_none_iff.mp hp] at hl
    cases hl
  have hlow := hpage _ hlow
  have hlow' := hpage _ hlow'
  have hhigh := hpage _ hhigh
  have hhigh' := hpage _ hhigh'
  have hsize : (nextMultipleOf (highScreen.phys + highScreen.bytes) pageSize -
    highScreen.base).toNat = 8192 := by decide
  have hbase : highScreen.base.toNat = 0x7FFFC0000000 := by decide
  have hvirt : (physMapBase + highScreen.base).toNat = 0xFFFFFFFFC0000000 := by decide
  obtain ⟨hlo, hhi⟩ := hcov
  unfold slot at hlow hlow' hhigh hhigh'
  simp only [UInt64.toNat_ofNat, Nat.reducePow, Nat.reduceMod, Nat.reduceDiv] at *
  obtain rfl | rfl := Boot.mem_screenCalls.mp hc <;> dsimp only at hlo hhi <;> omega

/-- Both trees show a screen beyond the window. -/
theorem screen_shown_iff_high : ∃ elf highest tables s₁ extra s₂,
    LoaderRun highScreen elf highest tables s₁ extra s₂ ∧
      highScreen.Shown FakeMemory.source tables s₂ ∧
        ∃ tables' linear k', init FakeMemory.source bareLayout true 0x200000 0 (some highScreen)
          .empty = (.ok (tables', linear), k') ∧
            highScreen.Shown FakeMemory.source
              (Mapper.adopt tables'.root tables'.gibPages) k' := by
  obtain ⟨elf, highest, tables, s₁, extra, s₂, hrun, hdark, -⟩ := exists_loaderRun
    (show afterLoader highScreen [0x7FFFC0000000, 0x7FFFC0001000, 0xFFFFFFFFC0000000,
      0xFFFFFFFFC0001000] [] = some ([none, none, none, none], []) by decide +kernel)
  obtain ⟨tables', linear, k', hinit⟩ := highScreen_init
  obtain rfl : highest = 0 := by
    have hzero : highestRamAddress emptyMap 40 Boot.gib.toNat = .ok 0 := by decide
    exact Except.ok.inj (hrun.probed.symm.trans hzero)
  have hm := (Boot.placeImage_spec FakeMemory.lawful (by decide)
    (fun _ _ => bareKernel_fits hrun.parsed) hrun.placed).1
  obtain ⟨hloader, hkernel⟩ := screen_shown_iff FakeMemory.lawful FakeMemory.lawful
    (by decide) (fun _ _ => bareKernel_fits hrun.parsed) (by decide) (by decide) (by decide)
    hrun.probed hrun.placed hrun.mapped (by rw [Boot.mapMemory_answered, hrun.mapped]; nofun)
    hinit (by rw [init_answered, hinit]; nofun)
  have hfits : Boot.ScreenFits FakeMemory.source tables (Boot.mappedBytes 0) highScreen s₁ := {
    whole := by decide
    addressed := .inr (by unfold Framebuffer.Addressable; decide)
    inside := fun hlt => absurd hlt (by decide)
    apart := fun _ c hc _ => ⟨by decide, highScreen_clear hm hdark c hc⟩ }
  obtain ⟨tables'', linear', hanswer, hshown⟩ := hkernel.mpr highScreen_fits
  obtain ⟨rfl, rfl⟩ := Prod.ext_iff.mp (Except.ok.inj hanswer)
  exact ⟨elf, 0, tables, s₁, extra, s₂, hrun, (hloader.mpr hfits).2, _, _, k', hinit, hshown⟩

end StarOs.Kernel
