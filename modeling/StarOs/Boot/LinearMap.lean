import StarOs.Boot.PlaceImage
import StarOs.Bootinfo.Memmap

/-! The loader's identity and linear maps. They cover memory up to the end of RAM; the screen
is mapped beside them when it starts beyond that end. -/

namespace StarOs.Boot

open Bootinfo Library Paging

def gib : UInt64 := 0x40000000

def minMapped : UInt64 := 4 * gib

/-- The extent of the maps: `highest` is the answer of `highest_ram_address`. -/
def mappedBytes (highest : ℕ) : UInt64 := max (UInt64.ofNat highest) minMapped

section

variable {σ : Type} (F : FrameSource σ) (tables : PageTables)

/-- The identity and linear maps of `run`, of the first `mapped` bytes, and the screen's own;
it returns `extra_fb`. -/
def mapMemory (mapped : UInt64) (framebuffer : Framebuffer) (s : σ) :
    Except MapError UInt64 × σ :=
  match tables.map F 0 0 mapped ⟨true, true, false⟩ s with
  | (.error e, s) => (.error e, s)
  | (.ok (), s) =>
    match tables.map F physMapBase 0 mapped Rights.rw s with
    | (.error e, s) => (.error e, s)
    | (.ok (), s) =>
      if framebuffer.isSane then
        let base := framebuffer.phys &&& ~~~(pageSize - 1)
        let endAddr := nextMultipleOf (framebuffer.phys + framebuffer.bytes) pageSize
        if base ≥ mapped then
          let extra := endAddr - base
          match tables.map F base base extra Rights.rw s with
          | (.error e, s) => (.error e, s)
          | (.ok (), s) =>
            match tables.map F (physMapBase + base) base extra Rights.rw s with
            | (.error e, s) => (.error e, s)
            | (.ok (), s) => (.ok extra, s)
        else (.ok 0, s)
      else (.ok 0, s)

end

/-- The calls for a screen of its own. -/
def screenCalls (fb : Framebuffer) : List Call :=
  let extra := nextMultipleOf (fb.phys + fb.bytes) pageSize - fb.base
  [⟨fb.base, fb.base, extra, Rights.rw, .normal⟩,
    ⟨physMapBase + fb.base, fb.base, extra, Rights.rw, .normal⟩]

/-- The calls it makes. -/
def memoryCalls (mapped : UInt64) (fb : Framebuffer) : List Call :=
  [⟨0, 0, mapped, ⟨true, true, false⟩, .normal⟩, ⟨physMapBase, 0, mapped, Rights.rw, .normal⟩] ++
    if fb.isSane ∧ fb.base ≥ mapped then screenCalls fb else []

section

variable {σ : Type} {F : FrameSource σ} {tables : PageTables} {mapped : UInt64} {fb : Framebuffer}
  {s s' : σ}

theorem mapMemory_eq : Prod.map (Except.map fun _ => ()) id (mapMemory F tables mapped fb s) =
    Call.performAll F tables (memoryCalls mapped fb) s := by
  have hbase : fb.phys &&& ~~~(pageSize - 1) = fb.base := rfl
  simp only [mapMemory, memoryCalls, screenCalls, hbase, List.cons_append, List.nil_append,
    Call.performAll, Call.perform]
  rcases tables.map F 0 0 mapped ⟨true, true, false⟩ s with ⟨_ | _, s₁⟩
  · rfl
  · dsimp only
    rcases tables.map F physMapBase 0 mapped Rights.rw s₁ with ⟨_ | _, s₂⟩
    · rfl
    · dsimp only
      by_cases hsane : fb.isSane
      · by_cases hown : fb.base ≥ mapped
        · simp only [hsane, hown, and_self, if_true, Call.performAll, Call.perform]
          rcases tables.map F _ _ _ Rights.rw s₂ with ⟨_ | _, s₃⟩
          · rfl
          · dsimp only
            rcases tables.map F _ _ _ Rights.rw s₃ with ⟨_ | _, s₄⟩ <;> rfl
        · simp only [hsane, hown, and_false, if_true, if_false]
          rfl
      · simp only [hsane, false_and, if_false, Bool.false_eq_true]
        rfl

/-- It gives up for want of a table exactly when a request of its own was refused. -/
theorem mapMemory_answered : none ∈ tableAnswers (mapMemory F.noted tables mapped fb) s ↔
    (mapMemory F tables mapped fb s).1 = .error .outOfFrames := by
  have hnoted := (performAll_noted F tables [] s (memoryCalls mapped fb)).answered
  rw [tableAnswers, ← mapMemory_eq, ← mapMemory_eq] at hnoted
  refine hnoted.trans ?_
  cases mapMemory F tables mapped fb s with
  | mk res s' => cases res <;> simp [Except.map]

/-! ### Where the calls lie -/

/-- The loader maps whole GiB, unless the end of RAM could not be rounded up. -/
theorem mappedBytes_whole {map : Slice} {descriptorSize highest : ℕ}
    (h : highestRamAddress map descriptorSize gib.toNat = .ok highest) :
    (mappedBytes highest).toNat % 2 ^ 30 = 0 ∨ (mappedBytes highest).toNat = 2 ^ 64 - 1 := by
  unfold highestRamAddress at h
  split at h
  · cases h
  · dsimp only at h
    have hbound := highest_le_u64Max (descriptors map descriptorSize) (Nat.zero_le u64Max)
    have hmax : u64Max = 2 ^ 64 - 1 := rfl
    have hmin : minMapped.toNat = 2 ^ 32 := rfl
    unfold mappedBytes
    rw [UInt64.max_def]
    cases hnext : checkedNextMultipleOf ((descriptors map descriptorSize).foldl highestStep 0)
        gib.toNat with
    | none =>
      rw [hnext] at h
      obtain rfl : u64Max = highest := Except.ok.inj h
      exact .inr rfl
    | some y =>
      rw [hnext] at h
      obtain rfl : y = highest := Except.ok.inj h
      obtain ⟨hmod, -, hlt⟩ := checkedNextMultipleOf_spec hnext (by omega)
      rw [show gib.toNat = 2 ^ 30 from rfl] at hmod
      have hword : (UInt64.ofNat y).toNat = y := UInt64.toNat_ofNat_of_lt' hlt
      left
      split <;> omega

theorem mem_memoryCalls {c : Call} : c ∈ memoryCalls mapped fb ↔
    c = ⟨0, 0, mapped, ⟨true, true, false⟩, .normal⟩ ∨
    c = ⟨physMapBase, 0, mapped, Rights.rw, .normal⟩ ∨
    (fb.isSane ∧ fb.base ≥ mapped) ∧ c ∈ screenCalls fb := by
  simp only [memoryCalls, List.cons_append, List.nil_append, List.mem_cons]
  split
  · next hown => rw [and_iff_right hown]
  · next hown => simp [hown]

theorem mem_screenCalls {c : Call} : c ∈ screenCalls fb ↔
    c = ⟨fb.base, fb.base, nextMultipleOf (fb.phys + fb.bytes) pageSize - fb.base, Rights.rw,
      .normal⟩ ∨
    c = ⟨physMapBase + fb.base, fb.base, nextMultipleOf (fb.phys + fb.bytes) pageSize - fb.base,
      Rights.rw, .normal⟩ := by
  simp [screenCalls]

theorem screenCalls_range (hfb : fb.Addressable) {c : Call} (hc : c ∈ screenCalls fb) :
    InRange c.virt c.phys c.size := by
  have hpages := hfb.pages
  have hbase := hpages.base_aligned
  have hend := hpages.end_aligned
  have hle := hpages.base_le
  have hlast := hpages.le_end
  have hlt := hpages.end_lt
  have hvirt := hpages.virt
  have hlen := hpages.len
  have hP := toNat_physMapBase
  obtain ⟨hphys, hreach⟩ := hfb
  obtain rfl | rfl := mem_screenCalls.mp hc
  · refine ⟨hbase, hbase, ?_, .inl ?_, ?_⟩ <;> dsimp only <;> omega
  · refine ⟨?_, hbase, ?_, .inr ⟨?_, ?_⟩, ?_⟩ <;> dsimp only <;> omega

theorem memoryCalls_range (hfb : fb.Addressable) (hmapped : mapped.toNat % 4096 = 0)
    (hreach : mapped.toNat ≤ 2 ^ 47) {c : Call} (hc : c ∈ memoryCalls mapped fb) :
    InRange c.virt c.phys c.size := by
  have hP := toNat_physMapBase
  have hzero : (0 : UInt64).toNat = 0 := rfl
  obtain rfl | rfl | ⟨-, hc⟩ := mem_memoryCalls.mp hc
  · refine ⟨rfl, rfl, hmapped, .inl ?_, ?_⟩ <;> dsimp only <;> omega
  · refine ⟨(by decide : physMapBase.toNat % 4096 = 0), rfl, hmapped, .inr ⟨?_, ?_⟩, ?_⟩ <;>
      dsimp only <;> omega
  · exact screenCalls_range hfb hc

/-- What fits the window is mapped below the kernel's image. -/
theorem memoryCalls_below (hfb : fb.phys.toNat + fb.bytes.toNat ≤ window)
    (hreach : mapped.toNat ≤ window) {c : Call} (hc : c ∈ memoryCalls mapped fb) {v : UInt64}
    (hcov : c.Covers v) : v.toNat < kernelVma.toNat := by
  have hpages := (Framebuffer.addressable_of_le hfb).pages
  have hend := hpages.end_aligned
  have hle := hpages.base_le
  have hlast := hpages.le_end
  have hlt := hpages.end_lt
  have hvirt := hpages.virt
  have hlen := hpages.len
  have hP := toNat_physMapBase
  have hK : kernelVma.toNat = 2 ^ 64 - 2 ^ 31 := rfl
  have hzero : (0 : UInt64).toNat = 0 := rfl
  rw [window_eq] at hfb hreach
  obtain ⟨hlo, hhi⟩ := hcov
  obtain rfl | rfl | ⟨-, hc⟩ := mem_memoryCalls.mp hc
  · dsimp only at hlo hhi
    omega
  · dsimp only at hlo hhi
    omega
  · obtain rfl | rfl := mem_screenCalls.mp hc <;> dsimp only at hlo hhi <;> omega

theorem screenCalls_answer (hfb : fb.Addressable) {c : Call} (hc : c ∈ screenCalls fb)
    {v : UInt64} (hcov : c.Covers v) (hv : physMapBase.toNat ≤ v.toNat) :
    c.answer v = (v - physMapBase, Rights.rw, .normal) := by
  have hP := toNat_physMapBase
  have hpages := hfb.pages
  have hle := hpages.base_le
  have hlast := hpages.le_end
  have hlt := hpages.end_lt
  have hlen := hpages.len
  obtain ⟨hphys, hend⟩ := hfb
  obtain ⟨hlo, hhi⟩ := hcov
  obtain rfl | rfl := mem_screenCalls.mp hc
  · dsimp only at hlo hhi
    omega
  · have hoff : fb.base + (v - (physMapBase + fb.base)) = v - physMapBase := by grind
    exact Prod.ext hoff rfl

/-- Any call the loader makes answers for the linear map as the linear map should. -/
theorem memoryCalls_answer (hfb : fb.Addressable) (hreach : mapped.toNat ≤ 2 ^ 47) {c : Call}
    (hc : c ∈ memoryCalls mapped fb) {v : UInt64} (hcov : c.Covers v)
    (hv : physMapBase.toNat ≤ v.toNat) : c.answer v = (v - physMapBase, Rights.rw, .normal) := by
  have hP := toNat_physMapBase
  have hzero : (0 : UInt64).toNat = 0 := rfl
  obtain rfl | rfl | ⟨-, hc⟩ := mem_memoryCalls.mp hc
  · obtain ⟨hlo, hhi⟩ := hcov
    dsimp only at hlo hhi
    omega
  · simp [Call.answer]
  · exact screenCalls_answer hfb hc hcov hv

/-! ### The identity and linear maps -/

/-- The tree after the identity and linear maps, of any extent: each half of a page's places
below the extent, taken modulo 2^47, is a largest page, and the last lap answers. -/
structure Spread (F : FrameSource σ) (held : σ → Set UInt64) (tables : PageTables)
    (mapped : UInt64) (s s' : σ) : Prop where
  built : Built F held true (fun _ => True) tables s'
  byte : ∀ v : UInt64, ∀ y < mapped.toNat, v.toNat = physMapBase.toNat + y →
    ∃ t, tables.translate F v s' = some t ∧ t.rights.write ∧
      (t.phys.toNat = y ↔ (mapped.toNat - 1 - y) / 2 ^ 48 % 16 = 0)
  beside : ∀ v, mapped.toNat ≤ slot v % 2 ^ 47 → leafOf F tables v s' = leafOf F tables v s
  large : ∀ v, slot v % 2 ^ 47 < mapped.toNat → pageLevel F tables v s' = some tables.largestLevel

theorem slot_linear {v : UInt64} {y : ℕ} (hv : v.toNat = physMapBase.toNat + y) :
    slot v = 2 ^ 47 + y := by
  have hlt := v.toNat_lt
  have hP := toNat_physMapBase
  unfold slot
  omega

/-- At its own place in the linear map a byte is found again, unless a later lap went over it. -/
theorem linear_phys {v q : UInt64} {y : ℕ} (h : LastLap tables physMapBase mapped v q)
    (hmapped : mapped.toNat % 2 ^ 30 = 0) (hv : v.toNat = physMapBase.toNat + y) :
    q.toNat % 2 ^ 52 + v.toNat % tables.largestPage.toNat = y ↔
      (mapped.toNat - 1 - y) / 2 ^ 48 % 16 = 0 := by
  have hlt := v.toNat_lt
  have hP : physMapBase.toNat = 2 ^ 30 * (2 ^ 34 - 2 ^ 17) := rfl
  obtain ⟨haligned, hhere, hbelow, hlast⟩ := h
  have hbeyond : behind physMapBase v = y := by
    rw [behind, slot_linear hv, slot_linear (y := 0) rfl]
    omega
  rw [hbeyond] at hhere
  obtain hn | hn := largestPage_cases tables <;> rw [hn] at haligned hhere ⊢ <;> omega

theorem maps_spread {held : σ → Set UInt64} (hL : F.Lawful held)
    (hm : Built F held true (fun _ => True) tables s) (hsize : NoLarger F tables s)
    (hmapped : mapped.toNat % 2 ^ 30 = 0) {res : Except MapError Unit}
    (h : Call.performAll F tables [⟨0, 0, mapped, ⟨true, true, false⟩, .normal⟩,
      ⟨physMapBase, 0, mapped, Rights.rw, .normal⟩] s = (res, s')) :
    (∀ err, res = .error err → err = .outOfFrames) ∧
      (res = .ok () → Spread F held tables mapped s s') := by
  have hbase : physMapBase.toNat % 2 ^ 30 = 0 := by decide
  rw [Call.performAll] at h
  split at h
  · next err s₁ hone =>
    obtain ⟨rfl, rfl⟩ := Prod.ext_iff.mp h
    rw [perform_eq] at hone
    have hfail := (mapAs_wide hL hm hsize rfl hmapped hone).1 err rfl
    exact ⟨fun e he => Except.error.inj he ▸ hfail, by simp⟩
  next s₁ hone =>
  rw [perform_eq] at hone
  obtain ⟨hm₁, hsize₁, -⟩ := mapAs_keeps hL hm hsize hone
  have hidentity := (mapAs_wide hL hm hsize rfl hmapped hone).2 rfl
  rw [Call.performAll] at h
  split at h
  · next err s₂ htwo =>
    obtain ⟨rfl, rfl⟩ := Prod.ext_iff.mp h
    rw [perform_eq] at htwo
    have hfail := (mapAs_wide hL hm₁ hsize₁ hbase hmapped htwo).1 err rfl
    exact ⟨fun e he => Except.error.inj he ▸ hfail, by simp⟩
  next s₂ htwo =>
  obtain rfl : s₂ = s' := (Prod.ext_iff.mp h).2
  obtain rfl : .ok () = res := (Prod.ext_iff.mp h).1
  rw [perform_eq] at htwo
  have hm₂ := (mapAs_keeps hL hm₁ hsize₁ htwo).1
  have hlinear := (mapAs_wide hL hm₁ hsize₁ hbase hmapped htwo).2 rfl
  dsimp only at hidentity hlinear
  have hfirst : ∀ v, behind 0 v = slot v := by
    intro v
    unfold behind slot
    rw [show (0 : UInt64).toNat = 0 from rfl]
    omega
  have hsecond : ∀ v, behind physMapBase v = (slot v + 2 ^ 47) % 2 ^ 48 := by
    intro v
    rw [behind, slot_linear (v := physMapBase) (y := 0) rfl]
    omega
  have hlt : ∀ v, slot v < 2 ^ 48 := fun v => Nat.mod_lt _ (by omega)
  simp only [hfirst, hsecond] at hidentity hlinear
  refine ⟨by simp, fun _ => ⟨hm₂, fun v y hy hv => ?_, fun v hout => ?_, fun v hin => ?_⟩⟩
  · obtain ⟨q, hlap, hleaf⟩ := (hlinear v).1 (by
      rw [slot_linear hv]
      have := v.toNat_lt
      have hP := toNat_physMapBase
      omega)
    obtain ⟨t, ht, hphys, hrights⟩ := translate_leafEntry hm₂ (largestLevel_le tables)
      hlap.aligned rfl hleaf
    refine ⟨t, ht, congrArg Rights.write hrights, ?_⟩
    rw [hphys]
    exact linear_phys hlap hmapped hv
  · have := hlt v
    rw [(hlinear v).2 (by omega), (hidentity v).2 (by omega)]
  · have := hlt v
    rw [pageLevel_eq]
    by_cases hhit : (slot v + 2 ^ 47) % 2 ^ 48 < mapped.toNat
    · obtain ⟨q, -, hleaf⟩ := (hlinear v).1 hhit
      rw [hleaf]
      rfl
    · obtain ⟨q, -, hleaf⟩ := (hidentity v).1 (by omega)
      rw [(hlinear v).2 (by omega), hleaf]
      rfl

/-! ### The screen under these calls -/

/-- The calls for the screen are in range, or for one small page at most. -/
theorem screenCalls_size (hnone : fb.bytes.toNat = 0) {c : Call} (hc : c ∈ screenCalls fb) :
    c.virt.toNat % 4096 = 0 ∧ c.phys.toNat % 4096 = 0 ∧
      (c.size.toNat = 0 ∨ c.size.toNat = 4096) := by
  have hbase := fb.base_toNat
  have hphys := fb.phys.toNat_lt
  have hP : physMapBase.toNat = 4096 * (2 ^ 52 - 2 ^ 35) := rfl
  have hpage : pageSize.toNat = 4096 := rfl
  have hzero : fb.bytes = 0 := UInt64.toNat_inj.mp hnone
  have hextra : (nextMultipleOf (fb.phys + fb.bytes) pageSize - fb.base).toNat = 0 ∨
      (nextMultipleOf (fb.phys + fb.bytes) pageSize - fb.base).toNat = 4096 := by
    rw [hzero, UInt64.add_zero, nextMultipleOf]
    split
    · next hmod =>
      have hmod : fb.phys.toNat % 4096 = 0 := by
        rw [← hpage, ← UInt64.toNat_mod, beq_iff_eq.mp hmod]
        rfl
      left
      rw [UInt64.toNat_sub]
      omega
    · right
      have hgap : (pageSize - fb.phys % pageSize).toNat = 4096 - fb.phys.toNat % 4096 := by
        rw [UInt64.toNat_sub_of_le, UInt64.toNat_mod, hpage]
        rw [UInt64.le_iff_toNat_le, UInt64.toNat_mod, hpage]
        omega
      rw [UInt64.toNat_sub, UInt64.toNat_add, hgap]
      omega
  obtain rfl | rfl := mem_screenCalls.mp hc
  · refine ⟨?_, ?_, hextra⟩ <;> dsimp only <;> omega
  · refine ⟨?_, ?_, hextra⟩ <;> dsimp only
    · rw [UInt64.toNat_add]
      omega
    · omega

/-- In its half of the addresses the screen's first page is the lowest. -/
theorem screenCalls_slot (hfb : fb.bytes.toNat = 0 ∨ fb.Addressable) {c : Call}
    (hc : c ∈ screenCalls fb) : slot c.virt % 2 ^ 47 = fb.base.toNat % 2 ^ 47 ∧
      ∀ v, c.Covers v → fb.base.toNat % 2 ^ 47 ≤ slot v % 2 ^ 47 := by
  have hP : physMapBase.toNat = 2 ^ 64 - 2 ^ 47 := rfl
  have hbase := fb.base_toNat
  have hvirt : slot c.virt % 2 ^ 47 = fb.base.toNat % 2 ^ 47 := by
    unfold slot
    obtain rfl | rfl := mem_screenCalls.mp hc
    · dsimp only
      omega
    · dsimp only
      rw [UInt64.toNat_add]
      omega
  refine ⟨hvirt, fun v hcov => ?_⟩
  obtain ⟨hlo, hhi⟩ := hcov
  obtain hnone | hfb := hfb
  · obtain ⟨haligned, -, hsize⟩ := screenCalls_size hnone hc
    unfold slot at hvirt ⊢
    omega
  · have hrange := screenCalls_range hfb hc
    have hpages := hfb.pages
    have hle := hpages.base_le
    have hat := hpages.virt
    obtain ⟨hphys, hlast⟩ := hfb
    have hhalf := hrange.half
    have hv := v.toNat_lt
    unfold slot at hvirt ⊢
    obtain rfl | rfl := mem_screenCalls.mp hc <;> dsimp only at * <;> omega

/-- Given the tables they ask for, they succeed when they meet no page larger than their own. -/
theorem screenCalls_ok_iff {held : σ → Set UInt64} (hL : F.Lawful held)
    (hm : Built F held true (fun _ => True) tables s)
    (hfb : fb.bytes.toNat = 0 ∨ fb.Addressable) {res : Except MapError Unit}
    (h : Call.performAll F tables (screenCalls fb) s = (res, s'))
    (hres : res ≠ .error .outOfFrames) :
    res = .ok () ↔ ∀ c ∈ screenCalls fb, c.Clear F tables s := by
  obtain hnone | hfb := hfb
  · refine performAll_small_iff hL hm (fun c => screenCalls_size hnone) ?_ h hres
    -- the two pages are half the addresses apart
    have hP : physMapBase.toNat = 2 ^ 64 - 2 ^ 47 := rfl
    unfold slot
    dsimp only
    rw [UInt64.toNat_add]
    omega
  · rw [performAll_ok_iff hL (fun c hc => screenCalls_range hfb hc) hm h hres, and_iff_left]
    have hpages := hfb.pages
    have hat := hpages.virt
    have hlen := hpages.len
    have hlast := hpages.end_lt
    have hend := hpages.end_aligned
    have hP := toNat_physMapBase
    have hle := hpages.base_le
    obtain ⟨hphys, hreach⟩ := hfb
    simp only [screenCalls, List.pairwise_cons, List.forall_mem_cons, List.not_mem_nil,
      IsEmpty.forall_iff, implies_true, and_true, List.Pairwise.nil]
    rintro v ⟨-, hhi⟩ ⟨hlo, -⟩
    dsimp only at hlo hhi
    omega

/-- Where the maps did not come, the screen's calls meet what was there before; where they came
one stands in the way of any of the screen's. -/
theorem Spread.clear_iff {held : σ → Set UInt64} (h : Spread F held tables mapped s s')
    (hfb : fb.bytes.toNat = 0 ∨ fb.Addressable) (hown : mapped.toNat ≤ fb.base.toNat) :
    (∀ c ∈ screenCalls fb, c.Clear F tables s') ↔
      ∀ c ∈ screenCalls fb, c.size ≠ 0 →
        mapped.toNat ≤ fb.base.toNat % 2 ^ 47 ∧ c.Clear F tables s := by
  have hpos : ∀ c : Call, c.size ≠ 0 ↔ c.size.toNat ≠ 0 := fun c =>
    not_congr UInt64.toNat_inj.symm
  have hsame : ∀ c ∈ screenCalls fb, mapped.toNat ≤ fb.base.toNat % 2 ^ 47 →
      (c.Clear F tables s' ↔ c.Clear F tables s) := by
    intro c hc hbeyond
    refine forall_congr' fun v => forall_congr' fun hcov => ?_
    have hlow := (screenCalls_slot hfb hc).2 v hcov
    rw [pageLevel_eq, pageLevel_eq, h.beside v (hbeyond.trans hlow)]
  refine forall_congr' fun c => forall_congr' fun hc => ?_
  constructor
  · intro hclear hsize
    have hbeyond : mapped.toNat ≤ fb.base.toNat % 2 ^ 47 := by
      obtain hnone | hfb := hfb
      · by_contra hin
        have hat := (screenCalls_slot (.inl hnone) hc).1
        obtain ⟨-, -, hsmall⟩ := screenCalls_size hnone hc
        have hmet := hclear c.virt ⟨le_rfl, by have := (hpos c).mp hsize; omega⟩ _
          (h.large c.virt (by omega))
        rw [levelAt_small (by omega)] at hmet
        unfold Mapper.largestLevel at hmet
        split at hmet <;> omega
      · have hle := hfb.pages.base_le
        obtain ⟨hphys, -⟩ := hfb
        omega
    exact ⟨hbeyond, (hsame c hc hbeyond).mp hclear⟩
  · intro hfit v hcov
    obtain ⟨hbeyond, hclear⟩ := hfit ((hpos c).mpr (by obtain ⟨hlo, hhi⟩ := hcov; omega))
    exact (hsame c hc hbeyond).mpr hclear v hcov

theorem byteShown_iff {v : UInt64} {i : ℕ}
    (hv : v.toNat = physMapBase.toNat + (fb.phys.toNat + i)) : fb.ByteShown F tables s i ↔
      ∃ a, (tables.translate F v s).map Translation.answer = some a ∧
        a.1.toNat = fb.phys.toNat + i ∧ a.2.1.write := by
  constructor
  · rintro ⟨v', t, hv', ht, hphys, hwrite⟩
    obtain rfl := UInt64.toNat_inj.mp (hv'.trans hv.symm)
    exact ⟨t.answer, by rw [ht]; rfl, hphys, hwrite⟩
  · rintro ⟨a, ha, hphys, hwrite⟩
    obtain ⟨t, ht, rfl⟩ := Option.map_eq_some_iff.mp ha
    exact ⟨v, t, hv, ht, hphys, hwrite⟩

/-- A byte inside the maps is shown unless a later lap of them took its place, and one beside
them if it was shown before. -/
theorem Spread.byteShown_iff {held : σ → Set UInt64} (h : Spread F held tables mapped s s')
    (hm : Built F held true (fun _ => True) tables s) {i : ℕ} (hi : fb.phys.toNat + i < 2 ^ 47) :
    fb.ByteShown F tables s' i ↔
      if fb.phys.toNat + i < mapped.toNat then
        (mapped.toNat - 1 - (fb.phys.toNat + i)) / 2 ^ 48 % 16 = 0
      else fb.ByteShown F tables s i := by
  have hv := Framebuffer.toNat_byte hi
  split
  · next hin =>
    obtain ⟨t, ht, hwrite, hphys⟩ := h.byte _ _ hin hv
    rw [Boot.byteShown_iff hv, ht, ← hphys]
    constructor
    · rintro ⟨a, ha, hto, -⟩
      rw [← Option.some.inj ha] at hto
      exact hto
    · exact fun hto => ⟨t.answer, rfl, hto, hwrite⟩
  · next hout =>
    rw [Boot.byteShown_iff hv, Boot.byteShown_iff hv, translate_congr hm h.built (h.beside _ ?_)]
    rw [slot_linear hv]
    omega

/-- The screen's own calls show it. -/
theorem screenCalls_shown {held : σ → Set UInt64} (hL : F.Lawful held)
    (hm : Built F held true (fun _ => True) tables s) (hfb : fb.Addressable)
    (h : Call.performAll F tables (screenCalls fb) s = (.ok (), s')) : fb.Shown F tables s' := by
  intro i hi
  have hP := toNat_physMapBase
  have hpages := hfb.pages
  have hat := hpages.virt
  have hle := hpages.base_le
  have hend := hpages.le_end
  have hlen := hpages.len
  have hphys := hfb.1
  have hreach := hfb.2
  have hv := Framebuffer.toNat_byte (show fb.phys.toNat + i < 2 ^ 47 by omega)
  have hans := lastAnswer_eq_some ⟨_, mem_screenCalls.mpr (.inr rfl), by dsimp only; omega,
    by dsimp only; omega⟩ fun c hc hcov => screenCalls_answer hfb hc hcov
      (show physMapBase.toNat ≤ (UInt64.ofNat (physMapBase.toNat + (fb.phys.toNat + i))).toNat by
        omega)
  rw [byteShown_iff hv, performAll_translate hL (fun c hc => screenCalls_range hfb hc) hm h
    (.inr (by omega)), hans]
  refine ⟨_, rfl, ?_, rfl⟩
  rw [UInt64.toNat_sub_of_le _ _ (UInt64.le_iff_toNat_le.mpr (by omega))]
  omega

/-- The screens that the loader's tree shows, on the tree its maps are added to. -/
structure ScreenFits (F : FrameSource σ) (tables : PageTables) (mapped : UInt64)
    (fb : Framebuffer) (s : σ) : Prop where
  /-- The end of RAM could be rounded up. -/
  whole : mapped.toNat % 2 ^ 30 = 0
  addressed : fb.bytes.toNat = 0 ∨ fb.Addressable
  /-- A screen that begins inside the maps is where they last came by, or was there before. -/
  inside : fb.base < mapped → ∀ i < fb.bytes.toNat,
    if fb.phys.toNat + i < mapped.toNat then
      (mapped.toNat - 1 - (fb.phys.toNat + i)) / 2 ^ 48 % 16 = 0
    else fb.ByteShown F tables s i
  /-- The calls for any other meet neither the maps nor a larger page of before. -/
  apart : fb.base ≥ mapped → ∀ c ∈ screenCalls fb, c.size ≠ 0 →
    mapped.toNat ≤ fb.base.toNat % 2 ^ 47 ∧ c.Clear F tables s

/-- Given the tables they ask for, the loader's maps are made and show the screen exactly when
it fits. -/
theorem mapMemory_shown_iff {held : σ → Set UInt64} (hL : F.Lawful held)
    (hm : Built F held true (fun _ => True) tables s) (hsize : NoLarger F tables s)
    (hmapped : mapped.toNat % 2 ^ 30 = 0 ∨ mapped.toNat = 2 ^ 64 - 1) (hsane : fb.isSane)
    {res : Except MapError UInt64} (h : mapMemory F tables mapped fb s = (res, s'))
    (hframes : none ∉ tableAnswers (mapMemory F.noted tables mapped fb) s) :
    ((∃ extra, res = .ok extra) ∧ fb.Shown F tables s') ↔ ScreenFits F tables mapped fb s := by
  have hres : res ≠ .error .outOfFrames := by
    rw [mapMemory_answered, h] at hframes
    exact hframes
  have hrun : Call.performAll F tables (memoryCalls mapped fb) s =
      (res.map fun _ => (), s') := by
    rw [← mapMemory_eq, h]
    rfl
  have hfail : (res.map fun _ => ()) ≠ .error .outOfFrames := by
    cases res with
    | ok => simp [Except.map]
    | error err => exact fun heq => hres (congrArg Except.error (Except.error.inj heq))
  have hok : (∃ extra, res = .ok extra) ↔ (res.map fun _ => ()) = .ok () := by
    cases res <;> simp [Except.map]
  rw [hok]
  generalize (res.map fun _ => ()) = out at *
  clear hok hframes hres h
  by_cases hfb : fb.bytes.toNat = 0 ∨ fb.Addressable
  swap
  · exact iff_of_false (fun hshown => hfb hshown.2.addressable) fun hfits => hfb hfits.addressed
  by_cases hwhole : mapped.toNat % 2 ^ 30 = 0
  swap
  · -- such an extent is not of whole pages
    refine iff_of_false (fun hshown => ?_) fun hfits => hwhole hfits.whole
    rw [memoryCalls, List.cons_append, Call.performAll, perform_eq, mapAs_eq, if_neg] at hrun
    · cases (Prod.ext_iff.mp hrun).1.trans hshown.1
    · dsimp only
      omega
  rw [memoryCalls, performAll_append] at hrun
  split at hrun
  · next err s₂ hmaps =>
    obtain ⟨rfl, rfl⟩ := Prod.ext_iff.mp hrun
    have := (maps_spread hL hm hsize hwhole hmaps).1 err rfl
    exact absurd (congrArg Except.error this) hfail
  next s₂ hmaps =>
  have hspread := (maps_spread hL hm hsize hwhole hmaps).2 rfl
  split at hrun
  · next hown =>
    have hge := UInt64.le_iff_toNat_le.mp hown.2
    have hclear := hspread.clear_iff hfb hge
    rw [← screenCalls_ok_iff hL hspread.built hfb hrun hfail] at hclear
    constructor
    · rintro ⟨hmade, -⟩
      exact ⟨hwhole, hfb, fun hlt => absurd hown.2 (UInt64.not_le.mpr hlt),
        fun _ => hclear.mp hmade⟩
    · intro hfits
      have hmade := hclear.mpr (hfits.apart hown.2)
      refine ⟨hmade, ?_⟩
      obtain hnone | hfb := hfb
      · intro i hi
        omega
      · exact screenCalls_shown hL hspread.built hfb (hmade ▸ hrun)
  · next hin =>
    obtain rfl : s₂ = s' := (Prod.ext_iff.mp hrun).2
    obtain rfl : .ok () = out := (Prod.ext_iff.mp hrun).1
    have hlt : fb.base < mapped := UInt64.not_le.mp fun hge => hin ⟨hsane, hge⟩
    have hbytes : fb.Shown F tables s₂ ↔ ∀ i < fb.bytes.toNat,
        if fb.phys.toNat + i < mapped.toNat then
          (mapped.toNat - 1 - (fb.phys.toNat + i)) / 2 ^ 48 % 16 = 0
        else fb.ByteShown F tables s i := by
      refine forall_congr' fun i => forall_congr' fun hi => ?_
      refine hspread.byteShown_iff hm ?_
      obtain hnone | ⟨hphys, hreach⟩ := hfb <;> omega
    rw [hbytes]
    constructor
    · rintro ⟨-, hall⟩
      exact ⟨hwhole, hfb, fun _ => hall, fun hge => absurd hlt (UInt64.not_lt.mpr hge)⟩
    · exact fun hfits => ⟨rfl, hfits.inside hlt⟩

end

end StarOs.Boot
