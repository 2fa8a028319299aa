import StarOs.Kernel.SpaceOps

/-! Loading: the pages a program is given, in the order they are mapped, and what a space shows
of them afterwards. A page mapped twice shows what came last, and the frame it had is lost. -/

namespace StarOs.Kernel

open Library Library.Loop Paging

/-- A page of a program: its number, the bytes it starts with, and what ring 3 may do. -/
structure Page where
  number : ℕ
  bytes : List UInt8
  rights : Rights

/-- The last of the pages with this number. -/
def latest (pages : List Page) (n : ℕ) : Option Page :=
  (pages.filter (·.number == n)).getLast?

def segmentPage (s : Elf64.Segment) (page : ℕ) : Page :=
  ⟨s.vaddr.toNat / 4096 + page, (s.file.bytes.drop (4096 * page)).take 4096,
    AddressSpace.segmentRights s⟩

def segmentPages (s : Elf64.Segment) : List Page := (List.range s.pages).map (segmentPage s)

/-- The pages of every segment of an image, in the order of its headers. -/
def imagePages (segments : List (Except Elf64.ElfError Elf64.Segment)) : List Page :=
  segments.flatMap fun
    | .ok s => segmentPages s
    | .error _ => []

def stackPage : Page := ⟨userStack.toNat / 4096, [], Rights.rw.toUser⟩

def idPage (id : UInt8) : Page := ⟨userDataVa.toNat / 4096, [id], Rights.rw.toUser⟩

section

variable {σ : Type} (P : FramePool σ) (held : σ → Set UInt64)

/-- The address is in a page with these contents and rights. -/
def Shows (root : UInt64) (p : Page) (v : UInt64) (m : Mem σ) : Prop :=
  ∃ frame, Framed frame ∧ frame ∈ held m.pool ∧ frame ∉ spaceTables P root m ∧
    (∀ i < 512, m.read P frame i = pageWord p.bytes i) ∧
    spaceLeaf P root v m = some (0, leafEntry frame p.rights .normal 0)

/-- The pages were mapped in turn. -/
structure Laid (root : UInt64) (pages : List Page) (m m' : Mem σ) (lost : List UInt64) : Prop where
  hit : ∀ v, Lower v → ∀ p, latest pages (v.toNat / 4096) = some p → Shows P held root p v m'
  miss : ∀ v, Lower v → latest pages (v.toNat / 4096) = none →
    spaceLeaf P root v m' = spaceLeaf P root v m
  lost : (pages.map (·.number)).Nodup →
    (∀ v, Lower v → v.toNat / 4096 ∈ pages.map (·.number) → spaceLeaf P root v m = none) → lost = []

end

section

variable {σ : Type} {P : FramePool σ} {held : σ → Set UInt64} {clock root : UInt64}
  {a a' a₁ : AddressSpace} {m m' m₁ : Mem σ} {taken lost new gone : List UInt64} {v virt : UInt64}
  {rights : Rights} {pages pages' : List Page} {p : Page} {n : ℕ} {res : Except String Unit}
  {s : Elf64.Segment} {bytes : List UInt8}

theorem latest_append :
    latest (pages ++ pages') n = (latest pages' n).or (latest pages n) := by
  rw [latest, List.filter_append, List.getLast?_append, latest, latest]

theorem latest_eq_none : latest pages n = none ↔ n ∉ pages.map (·.number) := by
  rw [latest, List.getLast?_eq_none_iff, List.filter_eq_nil_iff, List.mem_map]
  simp

theorem latest_singleton : latest [p] n = if p.number = n then some p else none := by
  by_cases h : p.number = n <;> simp [latest, h]

theorem Laid.nil : Laid P held root [] m m [] :=
  ⟨fun _ _ _ h => absurd h (Option.some_ne_none _).symm, fun _ _ _ => rfl, fun _ _ => rfl⟩

/-- What a page shows stays while its leaf does. -/
theorem Shows.kept (hw : Worked P held clock a a' m m' taken lost)
    (hleaf : spaceLeaf P a.root v m' = spaceLeaf P a.root v m) (h : Shows P held a.root p v m) :
    Shows P held a.root p v m' := by
  obtain ⟨frame, hframed, hmem, hnot, hwords, hv⟩ := h
  refine ⟨frame, hframed, (hw.took.outstanding frame).mpr (.inr hmem), fun hq => ?_, ?_,
    hleaf.trans hv⟩
  · exact (hw.tables frame hq).elim (fun hq => hw.took.fresh frame hq hmem) hnot
  · exact fun i hi => (hw.frame frame hmem hnot i hi).trans (hwords i hi)

theorem Laid.append (h : Laid P held a.root pages m m₁ lost)
    (hw : Worked P held clock a a' m₁ m' new gone) (h' : Laid P held a.root pages' m₁ m' gone) :
    Laid P held a.root (pages ++ pages') m m' (gone ++ lost) := by
  constructor
  · intro v hv p hp
    rw [latest_append] at hp
    cases hnew : latest pages' (v.toNat / 4096) with
    | some q =>
      rw [hnew] at hp
      obtain rfl : q = p := Option.some.inj hp
      exact h'.hit v hv q hnew
    | none =>
      rw [hnew, Option.none_or] at hp
      exact (h.hit v hv p hp).kept hw (h'.miss v hv hnew)
  · intro v hv hnone
    rw [latest_append, Option.or_eq_none_iff] at hnone
    exact (h'.miss v hv hnone.1).trans (h.miss v hv hnone.2)
  · intro hnd hfree
    rw [List.map_append] at hnd hfree
    obtain ⟨hnd, hnd', hapart⟩ := List.nodup_append.mp hnd
    have hlost : lost = [] :=
      h.lost hnd fun v hv hmem => hfree v hv (List.mem_append_left _ hmem)
    have hgone : gone = [] := by
      refine h'.lost hnd' fun v hv hmem => ?_
      have hnone : latest pages (v.toNat / 4096) = none :=
        latest_eq_none.mpr fun hold => hapart _ hold _ hmem rfl
      exact (h.miss v hv hnone).trans (hfree v hv (List.mem_append_right _ hmem))
    rw [hlost, hgone, List.append_nil]

/-- A page mapped with success is laid. -/
theorem Paged.laid (hvirt : Lower virt)
    (h : Paged P held root virt bytes rights (.ok ()) m m' lost) :
    Laid P held root [⟨virt.toNat / 4096, bytes, rights⟩] m m' lost := by
  constructor
  · intro v hv p hp
    rw [latest_singleton] at hp
    split at hp
    · next hpage =>
      obtain rfl := Option.some.inj hp
      obtain ⟨frame, hframed, hmem, hnot, hwords, hleaf⟩ := h.hit rfl
      exact ⟨frame, hframed, hmem, hnot, hwords, hleaf v hv hpage.symm⟩
    · cases hp
  · intro v hv hnone
    rw [latest_singleton] at hnone
    split at hnone
    · cases hnone
    · next hpage => exact h.miss v hv fun heq => hpage heq.symm
  · exact fun _ hfree => h.lost rfl (hfree virt hvirt List.mem_cons_self)

/-! ### Segments -/

/-- The bounds `load` checks of a segment. -/
def Segment.Fits (s : Elf64.Segment) : Prop := s.vaddr.toNat + s.memsz.toNat ≤ 2 ^ 47

theorem fits_of_check (h : ¬(decide (s.vaddr ≥ userLimit) || decide (s.memsz > userLimit - s.vaddr)) =
    true) : Segment.Fits s := by
  rw [Bool.or_eq_true, decide_eq_true_iff, decide_eq_true_iff, not_or] at h
  obtain ⟨hlow, hlen⟩ := h
  have hlimit : userLimit.toNat = 2 ^ 47 := by decide
  rw [ge_iff_le, UInt64.le_iff_toNat_le, hlimit] at hlow
  rw [gt_iff_lt, UInt64.lt_iff_toNat_lt, UInt64.toNat_sub_of_le _ _
    (UInt64.le_iff_toNat_le.mpr (by omega)), hlimit] at hlen
  unfold Segment.Fits
  omega

theorem Segment.Fits.page (h : Segment.Fits s) {page : ℕ} (hpage : page < s.pages) :
    (s.vaddr + UInt64.ofNat (page * 4096)).toNat = s.vaddr.toNat + page * 4096 ∧
      Lower (s.vaddr + UInt64.ofNat (page * 4096)) ∧
      (s.vaddr + UInt64.ofNat (page * 4096)).toNat % 4096 = 0 := by
  have haligned := s.aligned
  unfold Elf64.Segment.pages at hpage
  unfold Segment.Fits at h
  have hoff : (UInt64.ofNat (page * 4096)).toNat = page * 4096 :=
    UInt64.toNat_ofNat_of_lt' (by rw [UInt64.size]; omega)
  have hsum : (s.vaddr + UInt64.ofNat (page * 4096)).toNat = s.vaddr.toNat + page * 4096 := by
    rw [UInt64.toNat_add, hoff]
    omega
  unfold Lower
  omega

/-- The bytes the page loop copies are the page's share of the file. -/
theorem taken_bytes {page copied : ℕ} (hcopied : copied = min (4096 * page) s.file.length) :
    (s.file.sub copied (copied + min 4096 (s.file.length - copied))).bytes =
      (s.file.bytes.drop (4096 * page)).take 4096 := by
  subst hcopied
  simp only [Slice.sub, Slice.length, List.drop_take, Nat.add_sub_cancel_left]
  by_cases hle : 4096 * page ≤ s.file.bytes.length
  · rw [Nat.min_eq_left hle, List.take_eq_take_iff, List.length_drop]
    omega
  · have hnil : ∀ k, s.file.bytes.length ≤ k → s.file.bytes.drop k = [] := fun k hk =>
      List.drop_eq_nil_of_le hk
    rw [hnil _ (by omega), hnil _ (by omega), List.take_nil, List.take_nil]

theorem loadPages_spec (hP : P.Lawful held) (hfits : Segment.Fits s) (hwx : s.rights.isWx = false)
    {page copied : ℕ} (hok : SpaceOk P held clock a m) (hn : page + n = s.pages)
    (hcopied : copied = min (4096 * page) s.file.length)
    (h : a.loadPages P s n page copied m = (res, m')) :
    ∃ taken lost, Worked P held clock a a m m' taken lost ∧
      (res = .ok () →
        Laid P held a.root ((List.range' page n).map (segmentPage s)) m m' lost) := by
  induction n generalizing page copied m with
  | zero =>
    obtain ⟨rfl, rfl⟩ := Prod.ext_iff.mp h
    exact ⟨[], [], Worked.refl hok, fun _ => Laid.nil⟩
  | succ n ih =>
    obtain ⟨hat, hlower, haligned⟩ := hfits.page (show page < s.pages by omega)
    have hrights : ¬((AddressSpace.segmentRights s).write ∧ (AddressSpace.segmentRights s).exec) := by
      simpa [AddressSpace.segmentRights, Elf64.Rights.isWx] using hwx
    have hnumber : (s.vaddr + UInt64.ofNat (page * 4096)).toNat / 4096 =
        s.vaddr.toNat / 4096 + page := by omega
    rw [AddressSpace.loadPages] at h
    simp only [taken_bytes hcopied] at h
    split at h
    · next e m₁ hmap =>
      obtain ⟨rfl, rfl⟩ := Prod.ext_iff.mp h
      obtain ⟨taken, lost, hw, -⟩ := mapFresh_spec hP hok hlower haligned rfl hrights
        (by rw [List.length_take]; omega) hmap
      exact ⟨taken, lost, hw, nofun⟩
    · next m₁ hmap =>
      obtain ⟨taken, lost, hw, hpaged⟩ := mapFresh_spec hP hok hlower haligned rfl hrights
        (by rw [List.length_take]; omega) hmap
      obtain ⟨new, gone, hw', hlaid⟩ := ih hw.ok (by omega) (by omega) h
      refine ⟨new ++ taken, gone ++ lost, hw.trans hw', fun hres => ?_⟩
      have hfirst := hpaged.laid hlower
      rw [hnumber] at hfirst
      exact hfirst.append hw' (hlaid hres)

theorem loadSegments_spec (hP : P.Lawful held)
    {segments : List (Except Elf64.ElfError Elf64.Segment)} (hok : SpaceOk P held clock a m)
    (h : a.loadSegments P segments m = (res, m')) :
    ∃ taken lost, Worked P held clock a a m m' taken lost ∧
      (res = .ok () → Laid P held a.root (imagePages segments) m m' lost ∧
        ∀ r ∈ segments, ∃ s, r = .ok s ∧ Segment.Fits s) := by
  induction segments generalizing m with
  | nil =>
    obtain ⟨rfl, rfl⟩ := Prod.ext_iff.mp h
    exact ⟨[], [], Worked.refl hok, fun _ => ⟨Laid.nil, by simp⟩⟩
  | cons r rest ih =>
    cases r with
    | error e =>
      obtain ⟨rfl, rfl⟩ := Prod.ext_iff.mp h
      exact ⟨[], [], Worked.refl hok, nofun⟩
    | ok s =>
      rw [AddressSpace.loadSegments] at h
      split at h
      · obtain ⟨rfl, rfl⟩ := Prod.ext_iff.mp h
        exact ⟨[], [], Worked.refl hok, nofun⟩
      · next hwx =>
        split at h
        · obtain ⟨rfl, rfl⟩ := Prod.ext_iff.mp h
          exact ⟨[], [], Worked.refl hok, nofun⟩
        · next hcheck =>
          have hfits := fits_of_check hcheck
          split at h
          · next e m₁ hpages =>
            obtain ⟨rfl, rfl⟩ := Prod.ext_iff.mp h
            obtain ⟨taken, lost, hw, -⟩ := loadPages_spec hP hfits (Bool.not_eq_true _ ▸ hwx) hok
              (by omega) (by simp) hpages
            exact ⟨taken, lost, hw, nofun⟩
          · next m₁ hpages =>
            obtain ⟨taken, lost, hw, hlaid⟩ := loadPages_spec hP hfits (Bool.not_eq_true _ ▸ hwx) hok
              (by omega) (by simp) hpages
            obtain ⟨new, gone, hw', hrest⟩ := ih hw.ok h
            refine ⟨new ++ taken, gone ++ lost, hw.trans hw', fun hres => ?_⟩
            obtain ⟨hlaid', hall⟩ := hrest hres
            have hfirst := hlaid rfl
            rw [← List.range_eq_range'] at hfirst
            exact ⟨hfirst.append hw' hlaid', List.forall_mem_cons.mpr ⟨⟨s, rfl, hfits⟩, hall⟩⟩

/-! ### A whole space -/

/-- The entry point and the borrowed frame are beside the tree. -/
theorem SpaceOk.handle (h : SpaceOk P held clock a m) (hroot : a'.root = a.root)
    (hborrowed : a'.borrowed = a.borrowed ∨ a'.borrowed = some clock) :
    SpaceOk P held clock a' m := by
  constructor
  · exact hroot ▸ h.root
  · rw [hroot]
    refine h.holds.mono fun e he hp => ?_
    obtain ⟨hsmall, huser, hwx, hclock⟩ := he hp
    refine ⟨hsmall, huser, hwx, fun heq => ?_⟩
    obtain ⟨hwrite, hold⟩ := hclock heq
    exact ⟨hwrite, hborrowed.elim (fun hsame => hsame.trans hold) id⟩
  · exact hroot ▸ h.nodup
  · exact hroot ▸ h.owned
  · exact h.clock_held
  · exact hroot ▸ h.clock_apart
  · obtain hsame | hnew := hborrowed
    · exact hsame ▸ h.borrowed
    · exact .inr hnew

theorem Worked.handle (hok : SpaceOk P held clock a m) (hroot : a'.root = a.root)
    (hborrowed : a'.borrowed = a.borrowed ∨ a'.borrowed = some clock) :
    Worked P held clock a a' m m [] [] :=
  { Worked.refl hok with root := hroot, ok := hok.handle hroot hborrowed }

/-- Only the upper half of the top table is written. -/
theorem copyKernelHalf_stored (hP : P.Lawful held) {kernelRoot : UInt64}
    (hroot : root ∈ held m.pool) (hkernel : kernelRoot ∈ held m.pool) (hne : kernelRoot ≠ root) :
    Stored P held root (fun i => if 256 ≤ i then m.read P kernelRoot i else m.read P root i) m
      (AddressSpace.copyKernelHalf P kernelRoot root m) := by
  have hloop : Stored P held root (fun i => if 256 ≤ i ∧ i < 256 + 256 then m.read P kernelRoot i
      else m.read P root i) m (AddressSpace.copyKernelHalf P kernelRoot root m) := by
    refine forRange_invariant (P := fun k s => Stored P held root (fun i =>
      if 256 ≤ i ∧ i < 256 + k then m.read P kernelRoot i else m.read P root i) m s)
      ⟨rfl, rfl, rfl, fun _ _ _ _ _ => rfl, fun i _ => (if_neg (by omega)).symm⟩
      fun k hk s hs => ?_
    have hcopied := hs.beside kernelRoot hkernel hne (256 + k) (by omega)
    obtain ⟨hheld, hread⟩ := hP.write s.pool root (256 + k) (s.read P kernelRoot (256 + k))
      (hs.outstanding ▸ hroot) (by omega)
    constructor
    · exact hs.events
    · exact hs.inUse
    · exact hheld.trans hs.outstanding
    · intro t ht hnt i hi
      refine (hread t (hs.outstanding ▸ ht) i hi).trans ?_
      rw [if_neg fun h => hnt h.1]
      exact hs.beside t ht hnt i hi
    · intro i hi
      refine (hread root (hs.outstanding ▸ hroot) i hi).trans ?_
      by_cases hik : i = 256 + k
      · rw [if_pos ⟨rfl, hik⟩, if_pos (by omega), hik]
        exact hcopied
      · rw [if_neg fun h => hik h.2]
        refine (hs.word i hi).trans ?_
        by_cases hin : 256 ≤ i ∧ i < 256 + k
        · rw [if_pos hin, if_pos (by omega)]
        · rw [if_neg hin, if_neg (by omega)]
  refine ⟨hloop.events, hloop.inUse, hloop.outstanding, hloop.beside, fun i hi => ?_⟩
  refine (hloop.word i hi).trans ?_
  by_cases hlo : 256 ≤ i
  · rw [if_pos ⟨hlo, by omega⟩, if_pos hlo]
  · rw [if_neg fun h => hlo h.1, if_neg hlo]

/-- A space made from nothing: it has the kernel's upper half, and of the frames taken for it
those not lost. -/
structure Created (P : FramePool σ) (held : σ → Set UInt64) (clock : UInt64) (tables : Tables)
    (a : AddressSpace) (m m' : Mem σ) (taken lost : List UInt64) : Prop where
  took : Took held m m' taken
  frame : ∀ t ∈ held m.pool, ∀ i < 512, m'.read P t i = m.read P t i
  ok : SpaceOk P held clock a m'
  cells : (spaceFrames P clock a.root m' ++ lost).Perm taken
  upper : ∀ k < 512, 256 ≤ k → m'.read P a.root k = m.read P tables.root k

theorem Created.mem_taken {tables : Tables} {q : UInt64}
    (h : Created P held clock tables a m m' taken lost)
    (hq : q ∈ spaceFrames P clock a.root m') : q ∈ taken :=
  h.cells.mem_iff.mp (List.mem_append_left lost hq)

theorem Created.worked {tables : Tables} (h : Created P held clock tables a m m₁ taken lost)
    (hw : Worked P held clock a a' m₁ m' new gone) :
    Created P held clock tables a' m m' (new ++ taken) (gone ++ lost) := by
  constructor
  · exact h.took.trans hw.took
  · intro t ht i hi
    refine (hw.frame t ((h.took.outstanding t).mpr (.inr ht)) (fun hq => ?_) i hi).trans
      (h.frame t ht i hi)
    exact h.took.fresh t (h.mem_taken (h.ok.tables_sub hq)) ht
  · exact hw.ok
  · rw [hw.root]
    calc spaceFrames P clock a.root m' ++ (gone ++ lost)
        |>.Perm (new ++ spaceFrames P clock a.root m₁ ++ lost) := by
          rw [← List.append_assoc]
          exact hw.cells.append_right lost
      _ |>.Perm (new ++ taken) := by
          rw [List.append_assoc]
          exact h.cells.append_left new
  · intro k hk hlo
    rw [hw.root]
    exact (hw.upper k hk hlo).trans (h.upper k hk hlo)

theorem new_spec (hP : P.Lawful held) {tables : Tables} (hclock : clock ∈ held m.pool)
    (hkernel : tables.root ∈ held m.pool) {r : Except String AddressSpace}
    (h : AddressSpace.new P tables m = (r, m')) :
    match r with
    | .ok a => Created P held clock tables a m m' [a.root] [] ∧ a.borrowed = none ∧
        ∀ v, Lower v → spaceLeaf P a.root v m' = none
    | .error _ => Took held m m' [] ∧ ∀ t ∈ held m.pool, ∀ i < 512, m'.read P t i = m.read P t i := by
  unfold AddressSpace.new at h
  split at h
  · next m₁ ha =>
    obtain ⟨rfl, rfl⟩ := Prod.ext_iff.mp h
    exact allocFrame_none hP ha
  · next root m₁ ha =>
    obtain ⟨rfl, hm⟩ := Prod.ext_iff.mp h
    dsimp only at hm ⊢
    obtain ⟨htook, hread⟩ := allocFrame_some hP ha
    have hmem : root ∈ held m₁.pool := (htook.outstanding root).mpr (.inl List.mem_cons_self)
    have hfresh : root ∉ held m.pool := htook.fresh root List.mem_cons_self
    have hapart : ∀ t ∈ held m.pool, t ≠ root := fun t ht heq => hfresh (heq ▸ ht)
    have hframed := htook.framed root List.mem_cons_self
    have hz := zeroFrame_stored hP hmem
    generalize zeroFrame P root m₁ = m₂ at hz hm
    have hc := copyKernelHalf_stored hP (hz.outstanding ▸ hmem : root ∈ held m₂.pool)
      (hz.outstanding ▸ (htook.outstanding _).mpr (.inr hkernel)) (hapart _ hkernel)
    rw [hm] at hc
    have hkeep₂ : ∀ t ∈ held m.pool, ∀ i < 512, m₂.read P t i = m.read P t i := fun t ht i hi =>
      (hz.beside t ((htook.outstanding t).mpr (.inr ht)) (hapart t ht) i hi).trans (hread t ht i hi)
    have hall : Took held m m' [root] := (htook.trans hz.took).trans hc.took
    have hkeep : ∀ t ∈ held m.pool, ∀ i < 512, m'.read P t i = m.read P t i := fun t ht i hi =>
      (hc.beside t (hz.outstanding ▸ (htook.outstanding t).mpr (.inr ht)) (hapart t ht) i hi).trans
        (hkeep₂ t ht i hi)
    have hblank : ∀ i < 256, m'.read P root i = 0 := by
      intro i hi
      refine (hc.word i (by omega)).trans ?_
      rw [if_neg (by omega)]
      exact hz.word i (by omega)
    obtain ⟨hcells, hholds, hnone⟩ := @blank_tree false (m'.read P) (UserLeaf clock none) root
      (ownLeaf clock) hframed hblank userLeaf_zero rfl
    have hframes : spaceFrames P clock root m' = [root] := hcells
    refine ⟨⟨hall, hkeep, ⟨hframed, hholds, ?_, ?_, ?_, ?_, .inl rfl⟩, ?_, ?_⟩, rfl, ?_⟩
    · exact hframes ▸ List.nodup_singleton root
    · intro q hq
      obtain rfl := List.mem_singleton.mp (hframes ▸ hq)
      exact (hall.outstanding q).mpr (.inl List.mem_cons_self)
    · exact (hall.outstanding clock).mpr (.inr hclock)
    · intro hq
      exact hapart clock hclock (List.mem_singleton.mp (hframes ▸ hq))
    · rw [List.append_nil, hframes]
    · intro k hk hlo
      refine (hc.word k hk).trans ?_
      rw [if_pos hlo]
      exact hkeep₂ _ hkernel k hk
    · exact fun v hv => hnone v (.inr hv.index)

theorem load_spec (hP : P.Lawful held) {image : Elf64.Elf} (hok : SpaceOk P held clock a m)
    (h : a.load P image m = (res, a', m')) :
    ∃ taken lost, Worked P held clock a a' m m' taken lost ∧
      (res = .ok () → Laid P held a.root (imagePages image.segments) m m' lost ∧
        ∀ r ∈ image.segments, ∃ s, r = .ok s ∧ Segment.Fits s) := by
  unfold AddressSpace.load at h
  split at h
  · next e m₁ hs =>
    obtain ⟨rfl, hrest⟩ := Prod.ext_iff.mp h
    obtain ⟨rfl, rfl⟩ := Prod.ext_iff.mp hrest
    obtain ⟨taken, lost, hw, -⟩ := loadSegments_spec hP hok hs
    exact ⟨taken, lost, hw, nofun⟩
  · next m₁ hs =>
    obtain ⟨taken, lost, hw, hlaid⟩ := loadSegments_spec hP hok hs
    have hentry : Worked P held clock a { a with entry := image.entry } m₁ m₁ [] [] :=
      Worked.handle hw.ok rfl (.inl rfl)
    dsimp only at h
    split at h
    · obtain ⟨rfl, hrest⟩ := Prod.ext_iff.mp h
      obtain ⟨rfl, rfl⟩ := Prod.ext_iff.mp hrest
      exact ⟨taken, lost, hw.trans hentry, nofun⟩
    · obtain ⟨rfl, hrest⟩ := Prod.ext_iff.mp h
      obtain ⟨rfl, rfl⟩ := Prod.ext_iff.mp hrest
      exact ⟨taken, lost, hw.trans hentry, fun _ => hlaid rfl⟩

/-- The stack and the identity page are one page each. -/
theorem mapPage_spec (hP : P.Lawful held) (hok : SpaceOk P held clock a m) (hvirt : Lower virt)
    (hva : virt.toNat % 4096 = 0) (hlen : bytes.length ≤ 4096) {message : String}
    (h : a.mapFresh P message virt bytes Rights.rw.toUser m = (res, m')) :
    ∃ taken lost, Worked P held clock a a m m' taken lost ∧
      (res = .ok () →
        Laid P held a.root [⟨virt.toNat / 4096, bytes, Rights.rw.toUser⟩] m m' lost) := by
  obtain ⟨taken, lost, hw, hpaged⟩ := mapFresh_spec hP hok hvirt hva rfl (by decide) hlen h
  refine ⟨taken, lost, hw, ?_⟩
  rintro rfl
  exact hpaged.laid hvirt

theorem mapStack_spec (hP : P.Lawful held) (hok : SpaceOk P held clock a m)
    (h : a.mapStack P m = (res, m')) : ∃ taken lost, Worked P held clock a a m m' taken lost ∧
      (res = .ok () → Laid P held a.root [stackPage] m m' lost) :=
  mapPage_spec hP hok (by unfold Lower; decide) (by decide) (by decide) h

theorem seedId_spec (hP : P.Lawful held) {id : UInt8} (hok : SpaceOk P held clock a m)
    (h : a.seedId P id m = (res, m')) : ∃ taken lost, Worked P held clock a a m m' taken lost ∧
      (res = .ok () → Laid P held a.root [idPage id] m m' lost) :=
  mapPage_spec hP hok (by unfold Lower; decide) (by decide) (Nat.le_of_ble_eq_true rfl) h

/-- The clock's frame is mapped, not taken. -/
theorem mapClock_spec (hP : P.Lawful held) (hframed : Framed clock)
    (hok : SpaceOk P held clock a m) (h : a.mapClock P clock m = (res, a', m')) :
    ∃ taken lost, Worked P held clock a a' m m' taken lost ∧ a'.borrowed = some clock ∧
      (res = .ok () → spaceLeaf P a.root userClockVa m = none → lost = []) := by
  unfold AddressSpace.mapClock at h
  obtain ⟨hres, hrest⟩ := Prod.ext_iff.mp h
  obtain ⟨ha, hm⟩ := Prod.ext_iff.mp hrest
  dsimp only at hres ha hm
  have hstart : Worked P held clock a { a with borrowed := some clock } m m [] [] :=
    Worked.handle hok rfl (.inr rfl)
  rw [ha] at hres hm hstart
  obtain ⟨made, lost, hp⟩ := map_spec hP hstart.ok (by unfold Lower; decide) (by decide) hframed
    rfl (by decide) (fun _ => ⟨rfl, ha ▸ rfl⟩) (.inl rfl)
    (Prod.ext hres hm : a'.map P userClockVa clock Rights.ro.toUser m = (res, m'))
  have hroot : a'.root = a.root := hstart.root
  obtain ⟨put, hcells, hput⟩ := hp.cells
  obtain rfl : put = [] := by
    rw [hput]
    cases res with
    | ok => exact if_pos rfl
    | error e => rfl
  rw [List.append_nil] at hcells
  refine ⟨made, lost, ?_, ha ▸ rfl, ?_⟩
  · have hw : Worked P held clock a' a' m m' made lost :=
      ⟨rfl, hp.took, hp.frame, hp.upper, hp.tables, hcells, hp.ok⟩
    have hboth := hstart.trans hw
    rwa [List.append_nil, List.append_nil] at hboth
  · exact fun _ hnone => hp.lost (.inr (hroot ▸ hnone))

end

end StarOs.Kernel
