import StarOs.Boot.PlaceImage
import StarOs.Elf64.Segments

/-! Where the loader puts the kernel: the span it allocates, and what it copies and maps for
each segment, with the sums it forms without checking. -/

namespace StarOs.Elf64.Elf

open Library

/-- The end of a segment in memory, rounded up to a page. -/
def roundedEnd (seg : Segment) : ℕ := (seg.vaddr.toNat + seg.memsz.toNat + 4095) / 4096 * 4096

section

variable {l : List (Except ElfError Segment)} {lo hi lo' hi' : ℕ} {err : ElfError}

/-- The bounds are those of segments, unless there was none. -/
theorem spanFrom_attained (h : spanFrom l lo hi = .ok (lo', hi')) :
    (lo' = lo ∨ ∃ seg, .ok seg ∈ l ∧ lo' = seg.vaddr.toNat) ∧
      (hi' = hi ∨ ∃ seg, .ok seg ∈ l ∧ hi' = seg.vaddr.toNat + seg.memsz.toNat) ∧
      ∀ item ∈ l, ∃ seg, item = .ok seg := by
  induction l generalizing lo hi with
  | nil =>
    obtain ⟨rfl, rfl⟩ := Prod.ext_iff.mp (Except.ok.inj h)
    exact ⟨.inl rfl, .inl rfl, by simp⟩
  | cons item rest ih =>
    cases item with
    | error err => cases h
    | ok seg =>
      rw [spanFrom] at h
      split at h
      · cases h
      · next stop hstop =>
        obtain rfl := checkedAdd_eq hstop
        obtain ⟨hlo, hhi, hok⟩ := ih h
        refine ⟨?_, ?_, ?_⟩
        · obtain hlo | ⟨seg', hmem, hlo⟩ := hlo
          · obtain hmin | hmin := Nat.le_total lo seg.vaddr.toNat
            · exact .inl (by rw [hlo, Nat.min_eq_left hmin])
            · exact .inr ⟨seg, List.mem_cons_self, by rw [hlo, Nat.min_eq_right hmin]⟩
          · exact .inr ⟨seg', List.mem_cons_of_mem _ hmem, hlo⟩
        · obtain hhi | ⟨seg', hmem, hhi⟩ := hhi
          · obtain hmax | hmax := Nat.le_total hi (seg.vaddr.toNat + seg.memsz.toNat)
            · exact .inr ⟨seg, List.mem_cons_self, by rw [hhi, Nat.max_eq_right hmax]⟩
            · exact .inl (by rw [hhi, Nat.max_eq_left hmax])
          · exact .inr ⟨seg', List.mem_cons_of_mem _ hmem, hhi⟩
        · intro item hmem
          obtain rfl | hmem := List.mem_cons.mp hmem
          · exact ⟨seg, rfl⟩
          · exact hok item hmem

/-- The loop fails on the error of a segment, or on one that ends past the address space. -/
theorem spanFrom_error (h : spanFrom l lo hi = .error err) : .error err ∈ l ∨
    err = .spanOverflow ∧ ∃ seg, .ok seg ∈ l ∧ 2 ^ 64 ≤ seg.vaddr.toNat + seg.memsz.toNat := by
  induction l generalizing lo hi with
  | nil => cases h
  | cons item rest ih =>
    cases item with
    | error err' =>
      obtain rfl := Except.error.inj h
      exact .inl List.mem_cons_self
    | ok seg =>
      rw [spanFrom] at h
      split at h
      · next hstop =>
        obtain rfl := Except.error.inj h
        refine .inr ⟨rfl, seg, List.mem_cons_self, ?_⟩
        unfold checkedAdd at hstop
        split at hstop
        · cases hstop
        · omega
      · obtain hmem | ⟨herr, seg', hmem, hend⟩ := ih h
        · exact .inl (List.mem_cons_of_mem _ hmem)
        · exact .inr ⟨herr, seg', List.mem_cons_of_mem _ hmem, hend⟩

theorem checkedNextMultipleOf_none {x : ℕ} (h : checkedNextMultipleOf x 4096 = none) :
    2 ^ 64 ≤ (x + 4095) / 4096 * 4096 := by
  unfold checkedNextMultipleOf at h
  rw [if_neg (by decide)] at h
  split at h
  · cases h
  · unfold checkedAdd at h
    split at h
    · cases h
    · omega

end

section

variable {e : Elf} {base size : UInt64} {err : ElfError}

/-- The base is the lowest address of a segment, and the size that of whole pages. -/
theorem loadSpan_base (h : e.loadSpan = .ok (base, size)) :
    (∃ seg, .ok seg ∈ e.segments ∧ seg.vaddr = base) ∧ size.toNat % 4096 = 0 := by
  unfold loadSpan at h
  split at h
  · cases h
  · next lo hi hspan =>
    obtain ⟨hlo, -, hlt, hall⟩ := spanFrom_spec hspan (by omega)
    split at h
    · cases h
    · next hsome =>
      split at h
      · cases h
      · next hi' hround =>
        obtain ⟨hmod, hle, hlt'⟩ := checkedNextMultipleOf_spec hround hlt
        obtain ⟨rfl, rfl⟩ := Prod.ext_iff.mp (Except.ok.inj h)
        obtain ⟨seg, hmem, hbase⟩ := (spanFrom_attained hspan).1.resolve_left hsome
        have haligned := seg.aligned
        have hlast := (hall seg hmem).2
        refine ⟨⟨seg, hmem, ?_⟩, ?_⟩
        · rw [hbase, UInt64.ofNat_toNat]
        · dsimp only
          rw [UInt64.toNat_ofNat_of_lt' (show hi' - lo < 2 ^ 64 by omega)]
          omega

/-- `load_span` fails on the error of a segment, where there is no segment, and where one ends,
rounded to a page, past the address space. -/
theorem loadSpan_error (h : e.loadSpan = .error err) : .error err ∈ e.segments ∨
    (err = .noLoadableSegments ∧ e.segments = []) ∨
    err = .spanOverflow ∧ ∃ seg, .ok seg ∈ e.segments ∧ 2 ^ 64 ≤ roundedEnd seg := by
  unfold loadSpan at h
  split at h
  · next err' hspan =>
    obtain rfl := Except.error.inj h
    obtain hmem | ⟨herr, seg, hmem, hend⟩ := spanFrom_error hspan
    · exact .inl hmem
    · refine .inr (.inr ⟨herr, seg, hmem, ?_⟩)
      unfold roundedEnd
      omega
  · next lo hi hspan =>
    obtain ⟨-, hhi, hok⟩ := spanFrom_attained hspan
    split at h
    · next hnone =>
      obtain rfl := Except.error.inj h
      refine .inr (.inl ⟨rfl, List.eq_nil_iff_forall_not_mem.mpr fun item hmem => ?_⟩)
      obtain ⟨seg, rfl⟩ := hok item hmem
      have hle := ((spanFrom_spec hspan (by omega)).2.2.2 seg hmem).1
      have hlt := seg.vaddr.toNat_lt
      have haligned := seg.aligned
      omega
    · split at h
      · next hround =>
        obtain rfl := Except.error.inj h
        obtain rfl | ⟨seg, hmem, rfl⟩ := hhi
        · cases hround
        · exact .inr (.inr ⟨rfl, seg, hmem, checkedNextMultipleOf_none hround⟩)
      · cases h

end

end StarOs.Elf64.Elf

namespace StarOs.Boot

open Elf64 Library Paging

/-- `pages_for` -/
def pagesFor (bytes : UInt64) : ℕ := (bytes.toNat + 4095) / 4096

/-- What the loader does with a segment: the bytes of its file it copies to `dest`, and those it
maps there at `virt`. -/
structure Placement where
  virt : UInt64
  dest : UInt64
  copied : ℕ
  mapped : UInt64

/-- One turn of the loop over the segments, its sums checked. -/
def place (kernelPhys vbase : UInt64) (seg : Segment) : Checked Placement := do
  let off ← subWord seg.vaddr vbase
  let dest ← addWord kernelPhys off
  let mapped ← mul seg.pages 4096
  .ok ⟨seg.vaddr, dest, seg.file.length, UInt64.ofNat mapped⟩

section

variable {σ : Type} {F : FrameSource σ} {tables : PageTables} {kernelPhys vbase : UInt64}
  {seg : Segment} {p : Placement} {rest : List (Except ElfError Segment)} {s : σ}

/-- The loop maps a segment where it was placed. -/
theorem placeSegments_place (hplace : place kernelPhys vbase seg = .ok p) (hwx : seg.rights.isWx = false) :
    placeSegments F tables kernelPhys vbase (.ok seg :: rest) s =
      match tables.map F p.virt p.dest p.mapped (segmentRights seg.rights) s with
      | (.error err, s) => (.error (.map err), s)
      | (.ok (), s) => placeSegments F tables kernelPhys vbase rest s := by
  have hbytes : UInt64.ofNat (seg.pages * 4096) = UInt64.ofNat seg.pages * pageSize := UInt64.ofNat_mul ..
  obtain rfl : p = ⟨seg.vaddr, kernelPhys + (seg.vaddr - vbase), seg.file.length,
      UInt64.ofNat (seg.pages * 4096)⟩ := by
    unfold place subWord at hplace
    split at hplace
    · rw [checked_bind, addWord] at hplace
      split at hplace
      · rw [checked_bind, mul] at hplace
        split at hplace
        · exact (Except.ok.inj hplace).symm
        · cases hplace
      · cases hplace
    · cases hplace
  rw [hbytes, placeSegments]
  exact if_neg (by rw [hwx]; exact Bool.false_ne_true)

end

/-- The kernel's segments lie in the pages allocated for it: `load_span` gives the lowest address
and a whole number of pages, from which no segment's copy or mapping runs over, and it fails for
nothing but a bad segment, no segment, or one that ends past the address space. -/
theorem placement_inside {image : Slice} {e : Elf} (hparse : Elf.parse image = .ok e) :
    (∀ base size, e.loadSpan = .ok (base, size) →
      (∃ seg, .ok seg ∈ e.segments ∧ seg.vaddr = base) ∧ pagesFor size * 4096 = size.toNat ∧
      ∀ seg, .ok seg ∈ e.segments →
        base.toNat ≤ seg.vaddr.toNat ∧
        seg.vaddr.toNat - base.toNat + seg.pages * 4096 ≤ size.toNat ∧
        ∀ kernelPhys : UInt64, kernelPhys.toNat + pagesFor size * 4096 < 2 ^ 64 →
          ∃ p, place kernelPhys base seg = .ok p ∧ p.virt = seg.vaddr ∧
            p.dest.toNat = kernelPhys.toNat + (seg.vaddr.toNat - base.toNat) ∧
            p.copied = seg.file.length ∧ p.mapped.toNat = seg.pages * 4096 ∧
            p.dest.toNat + p.copied ≤ kernelPhys.toNat + pagesFor size * 4096 ∧
            p.dest.toNat + p.mapped.toNat ≤ kernelPhys.toNat + pagesFor size * 4096) ∧
    ∀ err, e.loadSpan = .error err → .error err ∈ e.segments ∨
      (err = .noLoadableSegments ∧ ∀ i < e.phnum, (e.header i).type ≠ ptLoad) ∨
      err = .spanOverflow ∧ ∃ seg, .ok seg ∈ e.segments ∧ 2 ^ 64 ≤ Elf.roundedEnd seg := by
  obtain ⟨rfl, ht⟩ := Elf.parse_tabled hparse
  refine ⟨fun base size hspan => ?_, fun err herror => ?_⟩
  · obtain ⟨hbase, hpaged⟩ := Elf.loadSpan_base hspan
    obtain ⟨hwrap, hsegs⟩ := Elf.loadSpan_spec hspan
    have hpages : pagesFor size * 4096 = size.toNat := by
      unfold pagesFor
      omega
    refine ⟨hbase, hpages, fun seg hmem => ?_⟩
    obtain ⟨hfirst, hlast⟩ := hsegs seg hmem
    refine ⟨hfirst, by omega, fun kernelPhys halloc => ?_⟩
    rw [hpages] at halloc ⊢
    obtain ⟨hsub, hoff⟩ := subWord_eq hfirst
    obtain ⟨hadd, hdest⟩ := addWord_eq (a := kernelPhys) (b := seg.vaddr - base) (by omega)
    have hmul : mul seg.pages 4096 = .ok (seg.pages * 4096) := mul_eq (by omega)
    have hmapped : (UInt64.ofNat (seg.pages * 4096)).toNat = seg.pages * 4096 :=
      UInt64.toNat_ofNat_of_lt' (by rw [UInt64.size]; omega)
    have hfile : seg.file.length ≤ seg.pages * 4096 := by
      have := seg.file_le
      unfold Segment.pages
      omega
    refine ⟨⟨seg.vaddr, kernelPhys + (seg.vaddr - base), seg.file.length, UInt64.ofNat (seg.pages * 4096)⟩,
      ?_, rfl, ?_, rfl, hmapped, ?_, ?_⟩
    · simp only [place, hsub, hadd, hmul, checked_bind]
    · rw [hdest, hoff]
    · dsimp only
      omega
    · dsimp only
      omega
  · obtain hmem | ⟨rfl, hnil⟩ | hover := Elf.loadSpan_error herror
    · exact .inl hmem
    · refine .inr (.inl ⟨rfl, fun i hi htype => ?_⟩)
      have hitem : e.item i ≠ none := by
        rw [ht.item_eq hi, if_pos htype]
        exact Option.some_ne_none _
      exact hitem (List.filterMap_eq_nil_iff.mp hnil i (List.mem_range.mpr hi))
    · exact .inr (.inr hover)

theorem noteAndLoad_inside : ∃ e, Elf.parse noteAndLoad = .ok e ∧ ∃ seg, .ok seg ∈ e.segments ∧
    ∃ p, place 0x100000 0xFFFFFFFF80000000 seg = .ok p ∧
      p.dest.toNat + p.mapped.toNat ≤ 0x100000 + 8192 := by
  have hnumbers : (Elf.parse noteAndLoad).toOption.bind (·.loadSpan.toOption) =
      some (0xFFFFFFFF80000000, 8192) := by decide +kernel
  cases hparse : Elf.parse noteAndLoad with
  | error err => rw [hparse] at hnumbers; cases hnumbers
  | ok e =>
    rw [hparse] at hnumbers
    cases hspan : e.loadSpan with
    | error err =>
      simp only [Except.toOption, Option.bind_some, hspan] at hnumbers
      cases hnumbers
    | ok span =>
      simp only [Except.toOption, Option.bind_some, hspan, Option.some.injEq] at hnumbers
      obtain ⟨⟨seg, hmem, -⟩, -, hall⟩ := (placement_inside hparse).1 _ _ (hnumbers ▸ hspan)
      obtain ⟨p, hplace, -, -, -, -, -, hin⟩ := (hall seg hmem).2.2 0x100000 (by decide)
      exact ⟨e, rfl, seg, hmem, p, hplace, hin⟩

end StarOs.Boot
