import StarOs.Bootinfo.Handoff
import StarOs.Elf64.Image
import StarOs.Paging.Wrapping

/-! The loader's placing of the kernel: a new tree, and one mapping for each segment of the
image, at the rights the segment asks for. -/

namespace StarOs.Boot

open Bootinfo Elf64 Library Paging

/-- `Error`: a message of the loader's own, or an answer of the mapper. -/
inductive Error where
  | own (text : String)
  | map (err : MapError)
  deriving DecidableEq

/-- `PageTables`: the tree the loader builds, over the frames of the boot services. -/
abbrev PageTables := Mapper

/-- The rights of a segment that is not both writable and executable. -/
def segmentRights (r : Elf64.Rights) : Paging.Rights :=
  match r.write, r.exec with
  | _, true => Rights.rx
  | true, false => Rights.rw
  | false, false => Rights.ro

section

variable {σ : Type} (F : FrameSource σ)

/-- The loop over the segments, of which it models the mapping. -/
def placeSegments (tables : PageTables) (kernelPhys vbase : UInt64) :
    List (Except ElfError Segment) → σ → Except Error Unit × σ
  | [], s => (.ok (), s)
  | .error err :: _, s => (.error (.own err.asStr), s)
  | .ok seg :: rest, s =>
    if seg.rights.isWx then
      (.error (.own "kernel image contains a writable+executable segment"), s)
    else
      let dest := kernelPhys + (seg.vaddr - vbase)
      match tables.map F seg.vaddr dest (UInt64.ofNat seg.pages * pageSize)
          (segmentRights seg.rights) s with
      | (.error err, s) => (.error (.map err), s)
      | (.ok (), s) => placeSegments tables kernelPhys vbase rest s

/-- Step 4 of `run`, of which it models the tree; `kernel_phys` is where the firmware put the
pages of the image. -/
def placeImage (gibPages : Bool) (elf : Elf) (kernelPhys : UInt64) (s : σ) :
    Except Error PageTables × σ :=
  match elf.loadSpan with
  | .error err => (.error (.own err.asStr), s)
  | .ok (vbase, _) =>
    if vbase ≠ kernelVma then
      (.error (.own "kernel image is not linked at the expected base"), s)
    else
      match Mapper.new F gibPages s with
      | (.error err, s) => (.error (.map err), s)
      | (.ok tables, s) =>
        match placeSegments F tables kernelPhys vbase elf.segments s with
        | (.error err, s) => (.error err, s)
        | (.ok (), s) => (.ok tables, s)

end

section

variable {σ : Type} {F : FrameSource σ} {held : σ → Set UInt64} {tables : PageTables}
  {kernelPhys : UInt64} {elf : Elf} {gib : Bool} {s s' : σ}

/-- The pages of a segment lie in the kernel's part of the address space. -/
structure InImage (c : Call) : Prop where
  range : InRange c.virt c.phys c.size
  above : kernelVma.toNat ≤ c.virt.toNat

/-- What the loop over the segments asks of the mapper. -/
theorem placeSegments_calls {size : UInt64} {l : List (Except ElfError Segment)}
    (halign : kernelPhys.toNat % 4096 = 0) (hphys : kernelPhys.toNat + size.toNat ≤ 2 ^ 52)
    (hwrap : kernelVma.toNat + size.toNat ≤ 2 ^ 64)
    (hl : ∀ seg, .ok seg ∈ l → kernelVma.toNat ≤ seg.vaddr.toNat ∧
      seg.vaddr.toNat + seg.pages * 4096 ≤ kernelVma.toNat + size.toNat)
    (h : placeSegments F tables kernelPhys kernelVma l s = (.ok (), s')) :
    ∃ cs, (∀ c ∈ cs, InImage c) ∧ Call.performAll F tables cs s = (.ok (), s') := by
  induction l generalizing s with
  | nil =>
    obtain rfl := (Prod.ext_iff.mp h).2
    exact ⟨[], by simp, rfl⟩
  | cons item rest ih =>
    cases item with
    | error err => cases h
    | ok seg =>
      rw [placeSegments] at h
      split at h
      · cases h
      · dsimp only at h
        split at h
        · cases h
        · next s₁ hmap =>
          obtain ⟨cs, hcs, hrun⟩ := ih (fun seg' hmem => hl seg' (List.mem_cons_of_mem _ hmem)) h
          obtain ⟨hlo, hhi⟩ := hl seg List.mem_cons_self
          have hvma : kernelVma.toNat = 2 ^ 64 - 2 ^ 31 := rfl
          have hvaddr := seg.aligned
          have hoff : (seg.vaddr - kernelVma).toNat = seg.vaddr.toNat - kernelVma.toNat :=
            UInt64.toNat_sub_of_le _ _ (UInt64.le_iff_toNat_le.mpr hlo)
          have hdest : (kernelPhys + (seg.vaddr - kernelVma)).toNat =
              kernelPhys.toNat + (seg.vaddr.toNat - kernelVma.toNat) := by
            rw [UInt64.toNat_add, hoff, Nat.mod_eq_of_lt (by omega)]
          have hbytes : (UInt64.ofNat seg.pages * pageSize).toNat = seg.pages * 4096 := by
            rw [UInt64.toNat_mul, UInt64.toNat_ofNat', show pageSize.toNat = 4096 from rfl,
              Nat.mod_eq_of_lt (by omega : seg.pages < 2 ^ 64), Nat.mod_eq_of_lt (by omega)]
          refine ⟨⟨seg.vaddr, kernelPhys + (seg.vaddr - kernelVma),
            UInt64.ofNat seg.pages * pageSize, segmentRights seg.rights, .normal⟩ :: cs, ?_, ?_⟩
          · intro c hc
            obtain rfl | hc := List.mem_cons.mp hc
            · refine ⟨⟨hvaddr, ?_, ?_, .inr ⟨?_, ?_⟩, ?_⟩, hlo⟩ <;> dsimp only <;> omega
            · exact hcs c hc
          · rw [Call.performAll, perform_eq, show Mapper.mapAs _ _ _ _ _ _ _ _ = _ from hmap]
            exact hrun

/-- After step 4 the tree has no page larger than the loader places, and maps nothing outside
the kernel's image. -/
theorem placeImage_spec (hL : F.Lawful held) (halign : kernelPhys.toNat % 4096 = 0)
    (hphys : ∀ base size, elf.loadSpan = .ok (base, size) →
      kernelPhys.toNat + size.toNat ≤ 2 ^ 52)
    (h : placeImage F gib elf kernelPhys s = (.ok tables, s')) :
    Built F held true (fun _ => True) tables s' ∧ NoLarger F tables s' ∧
      ∀ v, Canonical v → v.toNat < kernelVma.toNat → tables.translate F v s' = none := by
  unfold placeImage at h
  split at h
  · cases h
  · next vbase size hspan =>
    split at h
    · cases h
    · next hbase =>
      obtain rfl := not_not.mp hbase
      split at h
      · cases h
      · next tables' s₁ hnew =>
        split at h
        · cases h
        · next s₂ hplace =>
          obtain ⟨hok, rfl⟩ := Prod.ext_iff.mp h
          obtain rfl := Except.ok.inj hok
          obtain ⟨hm, hnone⟩ := new_built hL hnew
          obtain ⟨hwrap, hsegs⟩ := Elf.loadSpan_spec hspan
          obtain ⟨cs, hcs, hrun⟩ := placeSegments_calls halign (hphys _ _ hspan) hwrap hsegs hplace
          have hranges : ∀ c ∈ cs, InRange c.virt c.phys c.size := fun c hc => (hcs c hc).range
          obtain ⟨hm', hsize, -⟩ := performAll_keeps hL hm (new_noLarger hL hnew) hrun
          refine ⟨hm', hsize, fun v hv hlt => ?_⟩
          have hmiss : Call.lastAnswer cs v = none := lastAnswer_eq_none fun c hc hcov => by
            have habove := (hcs c hc).above
            have hle := hcov.1
            omega
          have hans := performAll_translate hL hranges hm hrun hv
          rw [hmiss, hnone v, Option.none_or, Option.map_none, Option.map_eq_none_iff] at hans
          exact hans

end

end StarOs.Boot
