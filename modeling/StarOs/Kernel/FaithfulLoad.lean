import StarOs.Kernel.BuildSpace

/-! What a loaded program finds in its pages. `load` checks that a segment starts at a page, not
that it has its pages to itself: where two segments meet in a page the last one wins, and the
image is faithful exactly when that makes no difference. -/

namespace StarOs.Kernel

open Library Library.Loop Paging

section

variable {σ : Type} (P : FramePool σ)

/-- The byte at a physical address. -/
def physByte (phys : UInt64) (m : Mem σ) : UInt8 :=
  (m.read P (UInt64.ofNat (phys.toNat / 4096 * 4096)) (phys.toNat % 4096 / 8) >>>
    UInt64.ofNat (8 * (phys.toNat % 8))).toUInt8

/-- Ring 3 finds the byte at `v`, with these rights. -/
def Finds (a : AddressSpace) (m : Mem σ) (v : UInt64) (b : UInt8) (rights : Rights) : Prop :=
  ∃ t, a.mapper.translate (kernelFrames P) v m = some t ∧ t.rights = rights ∧
    physByte P t.phys m = b

/-- Every page of every segment has the bytes of the file, zeroes behind them, and the rights of
the segment. -/
def Faithful (a : AddressSpace) (segments : List (Except Elf64.ElfError Elf64.Segment))
    (m : Mem σ) : Prop :=
  ∀ s, .ok s ∈ segments → ∀ i < 4096 * s.pages,
    Finds P a m (s.vaddr + UInt64.ofNat i) (if i < s.file.length then s.file.byte i else 0)
      ⟨s.rights.write, s.rights.exec, true⟩

end

/-- The two pages are the same to a program. -/
def Page.Alike (p q : Page) : Prop :=
  q.rights = p.rights ∧ ∀ j < 4096, q.bytes.getD j 0 = p.bytes.getD j 0

/-- Whatever page of a segment is mapped again is mapped to the same. -/
def Consistent (pages : List Page) : Prop :=
  ∀ p ∈ pages, ∀ q, latest pages p.number = some q → p.Alike q

section

variable {σ : Type} {P : FramePool σ} {held : σ → Set UInt64} {clock v : UInt64}
  {a a' : AddressSpace} {m m' m₁ : Mem σ} {lost : List UInt64} {p q : Page} {b b' : UInt8}
  {rights rights' : Rights} {s : Elf64.Segment} {page j : ℕ}

theorem Finds.unique (h : Finds P a m v b rights) (h' : Finds P a m v b' rights') :
    rights = rights' ∧ b = b' := by
  obtain ⟨t, ht, rfl, rfl⟩ := h
  obtain ⟨t', ht', rfl, rfl⟩ := h'
  obtain rfl := Option.some.inj (ht.symm.trans ht')
  exact ⟨rfl, rfl⟩

/-- The words of a page spell its bytes. -/
theorem Shows.finds (hok : SpaceOk P held clock a m) (hv : Lower v)
    (h : Shows P held a.root p v m) :
    Finds P a m v (p.bytes.getD (v.toNat % 4096) 0) p.rights := by
  obtain ⟨frame, hframed, -, -, hwords, hleaf⟩ := h
  obtain ⟨hpresent, -, haddr, hrights, -⟩ := leafEntry_spec p.rights .normal 0 hframed
  have hsome : a.mapper.translate (kernelFrames P) v m =
      some (leafTranslation v (0, leafEntry frame p.rights .normal 0)) := by
    rw [hok.built.translate (.inr hv.index)]
    exact (congrArg (Option.map (leafTranslation v)) hleaf)
  obtain ⟨e, he, -, -, hr, hphys⟩ := hok.translate hv.index hsome
  obtain rfl : leafEntry frame p.rights .normal 0 = e :=
    (Prod.ext_iff.mp (Option.some.inj (hleaf.symm.trans he))).2
  refine ⟨_, hsome, hr.trans hrights, ?_⟩
  rw [haddr] at hphys
  obtain ⟨halign, hbound⟩ := framed_iff.mp hframed
  rw [physByte, hphys, show (frame.toNat + v.toNat % 4096) / 4096 * 4096 = frame.toNat by omega,
    UInt64.ofNat_toNat, hwords _ (by omega), pageWord,
    show (frame.toNat + v.toNat % 4096) % 4096 = v.toNat % 4096 by omega,
    show (frame.toNat + v.toNat % 4096) % 8 = v.toNat % 4096 % 8 by omega,
    fromLeBytes_byte _ (by omega)]
  simp only [List.getD_eq_getElem?_getD]
  rw [List.getElem?_take_of_lt (by omega), List.getElem?_drop]
  congr 2
  omega

theorem segmentPage_byte (hj : j < 4096) : (segmentPage s page).bytes.getD j 0 =
    if 4096 * page + j < s.file.length then s.file.byte (4096 * page + j) else 0 := by
  simp only [segmentPage, Slice.byte, Slice.length, List.getD_eq_getElem?_getD]
  rw [List.getElem?_take_of_lt hj, List.getElem?_drop]
  split
  · rfl
  · next hle =>
    rw [List.getElem?_eq_none (by omega)]
    rfl

theorem mem_imagePages {segments : List (Except Elf64.ElfError Elf64.Segment)} :
    p ∈ imagePages segments ↔ ∃ s, .ok s ∈ segments ∧ ∃ page < s.pages, segmentPage s page = p := by
  rw [imagePages, List.mem_flatMap]
  constructor
  · rintro ⟨r, hr, hp⟩
    cases r with
    | error e => exact absurd hp List.not_mem_nil
    | ok s =>
      obtain ⟨page, hpage, rfl⟩ := List.mem_map.mp hp
      exact ⟨s, hr, page, List.mem_range.mp hpage, rfl⟩
  · rintro ⟨s, hs, page, hpage, rfl⟩
    exact ⟨.ok s, hs, List.mem_map.mpr ⟨page, List.mem_range.mpr hpage, rfl⟩⟩

theorem Segment.Fits.address (h : Segment.Fits s) (hpage : page < s.pages) (hj : j < 4096) :
    (s.vaddr + UInt64.ofNat (4096 * page + j)).toNat = s.vaddr.toNat + (4096 * page + j) ∧
      Lower (s.vaddr + UInt64.ofNat (4096 * page + j)) ∧
      (s.vaddr + UInt64.ofNat (4096 * page + j)).toNat / 4096 = (segmentPage s page).number ∧
      (s.vaddr + UInt64.ofNat (4096 * page + j)).toNat % 4096 = j := by
  have haligned := s.aligned
  unfold Elf64.Segment.pages at hpage
  unfold Segment.Fits at h
  have hoff : (UInt64.ofNat (4096 * page + j)).toNat = 4096 * page + j :=
    UInt64.toNat_ofNat_of_lt' (by rw [UInt64.size]; omega)
  have hsum : (s.vaddr + UInt64.ofNat (4096 * page + j)).toNat =
      s.vaddr.toNat + (4096 * page + j) := by
    rw [UInt64.toNat_add, hoff]
    omega
  rw [Lower, show (segmentPage s page).number = s.vaddr.toNat / 4096 + page from rfl]
  omega

theorem latest_of_mem {pages : List Page} (hp : p ∈ pages) : ∃ q, latest pages p.number = some q := by
  cases h : latest pages p.number with
  | some q => exact ⟨q, rfl⟩
  | none => exact absurd (List.mem_map.mpr ⟨p, hp, rfl⟩) (latest_eq_none.mp h)

/-- Once its pages are laid, an image is faithful when they are consistent, and only then. -/
theorem Laid.faithful_iff {segments : List (Except Elf64.ElfError Elf64.Segment)}
    (hok : SpaceOk P held clock a m') (hfits : ∀ s, .ok s ∈ segments → Segment.Fits s)
    (h : Laid P held a.root (imagePages segments) m m' lost) :
    Faithful P a segments m' ↔ Consistent (imagePages segments) := by
  -- what is found at an address of a segment is the last page with its number
  have hfinds : ∀ s, .ok s ∈ segments → ∀ page < s.pages, ∀ j < 4096, ∀ q,
      latest (imagePages segments) (segmentPage s page).number = some q →
      Finds P a m' (s.vaddr + UInt64.ofNat (4096 * page + j)) (q.bytes.getD j 0) q.rights := by
    intro s hs page hpage j hj q hq
    obtain ⟨-, hlower, hnumber, hoffset⟩ := (hfits s hs).address hpage hj
    have hshows := (h.hit _ hlower q (hnumber ▸ hq)).finds hok hlower
    rwa [hoffset] at hshows
  constructor
  · intro hfaithful p hp q hq
    obtain ⟨s, hs, page, hpage, rfl⟩ := mem_imagePages.mp hp
    have hboth : ∀ j < 4096, q.rights = (segmentPage s page).rights ∧
        q.bytes.getD j 0 = (segmentPage s page).bytes.getD j 0 := by
      intro j hj
      rw [segmentPage_byte hj]
      exact (hfinds s hs page hpage j hj q hq).unique (hfaithful s hs (4096 * page + j) (by omega))
    exact ⟨(hboth 0 (by omega)).1, fun j hj => (hboth j hj).2⟩
  · intro hcons s hs i hi
    have hmem : segmentPage s (i / 4096) ∈ imagePages segments :=
      mem_imagePages.mpr ⟨s, hs, i / 4096, by omega, rfl⟩
    obtain ⟨q, hq⟩ := latest_of_mem hmem
    obtain ⟨hrights, hbytes⟩ := hcons _ hmem q hq
    have hat := hfinds s hs (i / 4096) (by omega) (i % 4096) (by omega) q hq
    rw [hrights, hbytes _ (by omega), segmentPage_byte (by omega), Nat.div_add_mod] at hat
    exact hat

/-- A load into a fresh space that succeeds lays the pages of the image. -/
theorem load_laid (hP : P.Lawful held) {tables : Tables} (hroot : tables.root ∈ held m.pool)
    {elf : Elf64.Elf} (hnew : AddressSpace.new P tables m = (.ok a, m₁))
    (hload : a.load P elf m₁ = (.ok (), a', m')) : SpaceOk P held tables.root a' m' ∧
      (∀ s, .ok s ∈ elf.segments → Segment.Fits s) ∧
      ∃ lost, Laid P held a'.root (imagePages elf.segments) m₁ m' lost := by
  obtain ⟨hcreated, -, -⟩ := new_spec hP hroot hroot hnew
  obtain ⟨taken, lost, hw, hdone⟩ := load_spec hP hcreated.ok hload
  obtain ⟨hlaid, hfits⟩ := hdone rfl
  refine ⟨hw.ok, fun s hs => ?_, lost, hw.root ▸ hlaid⟩
  obtain ⟨s', hs', hfit⟩ := hfits _ hs
  exact Except.ok.inj hs' ▸ hfit

/-- A loaded image is faithful exactly when the pages its segments share are the same. -/
theorem load_faithful_iff (hP : P.Lawful held) {tables : Tables} (hroot : tables.root ∈ held m.pool)
    {elf : Elf64.Elf} (hnew : AddressSpace.new P tables m = (.ok a, m₁))
    (hload : a.load P elf m₁ = (.ok (), a', m')) :
    Faithful P a' elf.segments m' ↔ Consistent (imagePages elf.segments) := by
  obtain ⟨hok, hfits, lost, hlaid⟩ := load_laid hP hroot hnew hload
  exact hlaid.faithful_iff hok hfits

end

/-- The image loads into a fresh space of the small memory. -/
def loads (image : Slice) : Bool :=
  match Elf64.Elf.parse image with
  | .error _ => false
  | .ok elf =>
    match AddressSpace.new FrameStack.pool smallTables smallMemory with
    | (.error _, _) => false
    | (.ok a, m) => (a.load FrameStack.pool elf m).1.toBool

theorem exists_load {image : Slice} (h : loads image) : ∃ elf a m a' m',
    Elf64.Elf.parse image = .ok elf ∧
    AddressSpace.new FrameStack.pool smallTables smallMemory = (.ok a, m) ∧
    a.load FrameStack.pool elf m = (.ok (), a', m') := by
  unfold loads at h
  split at h
  · cases h
  · next elf hparse =>
    split at h
    · cases h
    · next a m hnew =>
      cases hload : a.load FrameStack.pool elf m with
      | mk res rest =>
        rw [hload] at h
        cases res with
        | error e => cases h
        | ok => exact ⟨elf, a, m, rest.1, rest.2, hparse, hnew, hload⟩

/-- A read-execute page at 0x400000 with a byte of the file, and a blank writable one there. -/
def overlapImage : Slice where
  bytes := elfHeader [0, 0, 0x40, 0, 0, 0, 0, 0] 2 ++
    [1, 0, 0, 0, 5, 0, 0, 0, 0, 0, 0, 0, 0, 0, 0, 0, 0, 0, 0x40, 0, 0, 0, 0, 0,
      0, 0, 0, 0, 0, 0, 0, 0, 1, 0, 0, 0, 0, 0, 0, 0, 1, 0, 0, 0, 0, 0, 0, 0,
      0, 0x10, 0, 0, 0, 0, 0, 0] ++
    [1, 0, 0, 0, 6, 0, 0, 0, 0, 0, 0, 0, 0, 0, 0, 0, 0, 0, 0x40, 0, 0, 0, 0, 0,
      0, 0, 0, 0, 0, 0, 0, 0, 0, 0, 0, 0, 0, 0, 0, 0, 1, 0, 0, 0, 0, 0, 0, 0,
      0, 0x10, 0, 0, 0, 0, 0, 0]
  length_le := by decide +kernel

theorem overlapImage_not_consistent {elf : Elf64.Elf}
    (hparse : Elf64.Elf.parse overlapImage = .ok elf) : ¬Consistent (imagePages elf.segments) := by
  have hpages : (Elf64.Elf.parse overlapImage).toOption.map (fun elf =>
      ((imagePages elf.segments).head?.map fun p => (p.number, p.rights.write),
        (latest (imagePages elf.segments) 0x400).map (·.rights.write))) =
      some (some (0x400, false), some true) := by decide +kernel
  rw [hparse] at hpages
  obtain ⟨hfirst, hlast⟩ := Prod.ext_iff.mp (Option.some.inj hpages)
  obtain ⟨p, hp, hpair⟩ := Option.map_eq_some_iff.mp hfirst
  obtain ⟨q, hq, hwrite⟩ := Option.map_eq_some_iff.mp hlast
  obtain ⟨hnumber, hread⟩ : p.number = 0x400 ∧ p.rights.write = false := Prod.ext_iff.mp hpair
  intro hcons
  have halike := (hcons p (List.mem_of_head? hp) q (by rw [hnumber]; exact hq)).1
  rw [halike] at hwrite
  exact absurd (hread.symm.trans hwrite) (by decide)

/-- The second segment takes the page of the first. -/
theorem load_replaces_page : ∃ elf a m a' m', Elf64.Elf.parse overlapImage = .ok elf ∧
    AddressSpace.new FrameStack.pool smallTables smallMemory = (.ok a, m) ∧
    a.load FrameStack.pool elf m = (.ok (), a', m') ∧
    ¬Faithful FrameStack.pool a' elf.segments m' := by
  obtain ⟨elf, a, m, a', m', hparse, hnew, hload⟩ :=
    exists_load (show loads overlapImage by decide +kernel)
  refine ⟨elf, a, m, a', m', hparse, hnew, hload, fun hfaithful => ?_⟩
  obtain ⟨hok, hfits, lost, hlaid⟩ := load_laid FrameStack.lawful smallMemory_held.1 hnew hload
  exact overlapImage_not_consistent hparse ((hlaid.faithful_iff hok hfits).mp hfaithful)

theorem load_faithful_iff_one : ∃ elf a m a' m', Elf64.Elf.parse onePageImage = .ok elf ∧
    AddressSpace.new FrameStack.pool smallTables smallMemory = (.ok a, m) ∧
    a.load FrameStack.pool elf m = (.ok (), a', m') ∧
    Faithful FrameStack.pool a' elf.segments m' := by
  obtain ⟨elf, a, m, a', m', hparse, hnew, hload⟩ :=
    exists_load (show loads onePageImage by decide +kernel)
  refine ⟨elf, a, m, a', m', hparse, hnew, hload, ?_⟩
  refine (load_faithful_iff FrameStack.lawful smallMemory_held.1 hnew hload).mpr ?_
  obtain ⟨p, hp, -⟩ := List.map_eq_singleton_iff.mp (onePageImage_numbers hparse)
  rw [hp]
  intro p' hp' q hq
  obtain rfl := List.mem_singleton.mp hp'
  rw [latest_singleton, if_pos rfl] at hq
  obtain rfl := Option.some.inj hq
  exact ⟨rfl, fun _ _ => rfl⟩

end StarOs.Kernel
