import StarOs.Boot.Depart

/-! What the kernel is entered in. At the jump the tree that `CR3` points to shows the image of the
file, byte for byte, at the rights its segments ask for, and nothing else in the kernel's part of
the address space. -/

namespace StarOs.Boot

open Bootinfo Elf64 Library LoaderM Paging

/-! ### The image of a file -/

/-- A segment's say on the byte at `v`: its file's, where it has one there. -/
def fileByte (v : ℕ) (b : UInt8) (seg : Segment) : UInt8 :=
  if seg.vaddr.toNat ≤ v ∧ v < seg.vaddr.toNat + seg.file.length then
    seg.file.bytes.getD (v - seg.vaddr.toNat) 0
  else b

/-- The byte of an image at `v`, of which segments beyond their files are zero. -/
def imageByte (segs : List Segment) (v : ℕ) : UInt8 := segs.foldl (fileByte v) 0

/-- A segment's say on the rights at `v`: it has whole pages. -/
def pageRights (v : ℕ) (r : Option Paging.Rights) (seg : Segment) : Option Paging.Rights :=
  if seg.vaddr.toNat ≤ v ∧ v < seg.vaddr.toNat + seg.pages * 4096 then
    some (segmentRights seg.rights)
  else r

/-- The rights of an image at `v`; of segments on one page the last has it. -/
def imageRights (segs : List Segment) (v : ℕ) : Option Paging.Rights :=
  segs.foldl (pageRights v) none

/-- Rights are those of a segment that has the page. -/
theorem imageRights_some {segs : List Segment} {v : ℕ} {r : Paging.Rights}
    (h : imageRights segs v = some r) : ∃ seg ∈ segs, seg.vaddr.toNat ≤ v ∧
      v < seg.vaddr.toNat + seg.pages * 4096 ∧ r = segmentRights seg.rights := by
  have hfold (l : List Segment) (r₀ : Option Paging.Rights) (h : l.foldl (pageRights v) r₀ = some r) :
      r₀ = some r ∨ ∃ seg ∈ l, seg.vaddr.toNat ≤ v ∧ v < seg.vaddr.toNat + seg.pages * 4096 ∧
        r = segmentRights seg.rights := by
    induction l generalizing r₀ with
    | nil => exact .inl h
    | cons seg l ih =>
      obtain hr | ⟨seg', hmem, hseg⟩ := ih (pageRights v r₀ seg) h
      · unfold pageRights at hr
        split at hr
        · next hcov => exact .inr ⟨seg, List.mem_cons_self, hcov.1, hcov.2, (Option.some.inj hr).symm⟩
        · exact .inl hr
      · exact .inr ⟨seg', List.mem_cons_of_mem _ hmem, hseg⟩
  exact (hfold segs none h).resolve_left (by simp)

theorem segmentRights_wx (r : Elf64.Rights) : ¬((segmentRights r).write ∧ (segmentRights r).exec) := by
  unfold segmentRights
  split <;> decide

section

variable {φ : Type} {fw : Firmware φ} {C : Contract fw} {tables : PageTables} {X : Set UInt64}
  {s s' : Loader φ} {u : Unit}

/-! ### The tree beside other pages -/

/-- The tree stands, apart from the loader's pages `X`. -/
structure Tree (C : Contract fw) (tables : PageTables) (X : Set UInt64) (s : Loader φ) : Prop where
  sound : Sound (bootServiceFrames fw) (fun s => C.given s.fw) tables s
  given : X ⊆ C.given s.fw
  apart : ∀ q ∈ X, q ∉ (tree true).tables ((bootServiceFrames fw).read s) 4 (rootEntry tables.root)

/-- A tree whose tables are held and not written translates as before. -/
theorem translate_congr {σ : Type} {F : FrameSource σ} {held : σ → Set UInt64} {m : Mapper}
    {s s' : σ} (hm : Sound F held m s)
    (h : ∀ t ∈ (tree true).tables (F.read s) 4 (rootEntry m.root),
      t ∈ held s' ∧ ∀ i < 512, F.read s' t i = F.read s t i) (v : UInt64) :
    m.translate F v s' = m.translate F v s := by
  rw [hm.built.translate (.inl rfl), (hm.congr h).built.translate (.inl rfl)]
  have hleaf : leafAt true (F.read s') 4 (rootEntry m.root) v =
      leafAt true (F.read s) 4 (rootEntry m.root) v := by
    simp only [leafAt]
    rw [TableTree.walk_congr (index_lt_fanout (.inl rfl)) fun t ht => (h t ht).2]
  exact congrArg (Option.map (leafTranslation v)) hleaf

/-- The words of a table are its bytes. -/
theorem read_same {m m' : PhysMemory} {a : ℕ} (h : PhysMemory.Same a (a + 4096) m m') {i : ℕ}
    (hi : i < 512) : m'.word (a + 8 * i) = m.word (a + 8 * i) :=
  (h.mono (by omega) (by omega)).word

theorem same_of_words {m m' : PhysMemory} {a : ℕ}
    (h : ∀ i < 512, m'.word (a + 8 * i) = m.word (a + 8 * i)) : PhysMemory.Same a (a + 4096) m m' := by
  intro x hlo hhi
  exact PhysMemory.same_of_word (h ((x - a) / 8) (by omega)) x (by omega) (by omega)

theorem Tree.congr (h : Tree C tables X s) (hgiven : C.given s.fw ⊆ C.given s'.fw)
    (hsame : ∀ t ∈ (tree true).tables ((bootServiceFrames fw).read s) 4 (rootEntry tables.root),
      PhysMemory.Same t.toNat (t.toNat + 4096) s.mem s'.mem) : Tree C tables X s' ∧
      ∀ v, tables.translate (bootServiceFrames fw) v s' =
        tables.translate (bootServiceFrames fw) v s := by
  have hkeep : ∀ t ∈ (tree true).tables ((bootServiceFrames fw).read s) 4 (rootEntry tables.root),
      t ∈ C.given s'.fw ∧
        ∀ i < 512, (bootServiceFrames fw).read s' t i = (bootServiceFrames fw).read s t i :=
    fun t ht => ⟨hgiven (h.sound.built.tree.owned t ht), fun i hi => read_same (hsame t ht) hi⟩
  refine ⟨⟨h.sound.congr hkeep, h.given.trans hgiven, fun q hq hin => h.apart q hq ?_⟩,
    translate_congr h.sound hkeep⟩
  rw [TableTree.tables, TableTree.cells_congr fun t ht => (hkeep t ht).2] at hin
  exact hin

theorem Tree.kept (h : Tree C tables X s) (hkept : Kept C s s') : Tree C tables X s' ∧
    ∀ v, tables.translate (bootServiceFrames fw) v s' =
      tables.translate (bootServiceFrames fw) v s :=
  h.congr hkept.given fun t ht => hkept.mem t (h.sound.built.tree.owned t ht)

/-- A store to the other pages. -/
theorem Tree.store (h : Tree C tables X s) {m : PhysMemory}
    (hm : ∀ x, (∀ q ∈ X, x < q.toNat ∨ q.toNat + 4096 ≤ x) → m x = s.mem x) :
    Tree C tables X { s with mem := m } ∧
      ∀ v, tables.translate (bootServiceFrames fw) v { s with mem := m } =
        tables.translate (bootServiceFrames fw) v s := by
  refine h.congr Set.Subset.rfl fun t ht x hlo hhi => hm x fun q hq => ?_
  have hne : q ≠ t := fun heq => h.apart q hq (heq ▸ ht)
  have hcases := pages_apart (C.aligned (h.given hq)) (C.aligned (h.sound.built.tree.owned t ht)) hne
  omega

theorem told_ok {α : Type} {x : Loader φ → Except MapError α × Loader φ} {a : α}
    (h : told x s = (.ok a, s')) : x s = (.ok a, s') := by
  unfold told at h
  split at h
  · cases h
  · next a' s₁ hx =>
    obtain ⟨ha, rfl⟩ := Prod.ext_iff.mp h
    rw [hx, Except.ok.inj ha]

/-- A call of the mapper leaves the other pages as they are. -/
theorem Tree.mapAs (h : Tree C tables X s) {virt phys size : UInt64} {r : Paging.Rights}
    {ty : MemoryType} {res : Except MapError Unit}
    (hmap : tables.mapAs (bootServiceFrames fw) virt phys size r ty s = (res, s')) :
    Tree C tables X s' ∧ ∀ q ∈ X, PhysMemory.Same q.toNat (q.toNat + 4096) s.mem s'.mem := by
  have hL := bootServiceFrames_lawful (C := C)
  obtain ⟨made, hext, -⟩ := h.sound.mapAs_footprint hL hmap
  refine ⟨⟨h.sound.mapAs hL hmap, fun q hq => (hext.grown.owned q).mpr (.inr (h.given hq)),
    fun q hq hin => ?_⟩, fun q hq => same_of_words fun i hi => hext.frame q (h.given hq)
      (h.apart q hq) i hi⟩
  exact (hext.tables q hin).elim (fun hmade => hext.grown.fresh q hmade (h.given hq)) (h.apart q hq)

/-- A new tree has one table, a new page. -/
theorem tree_new {gib : Bool} (hX : X ⊆ C.given s.fw)
    (h : newPageTables fw gib s = (.ok tables, s')) : Tree C tables X s' ∧
      (∀ q ∈ X, PhysMemory.Same q.toNat (q.toNat + 4096) s.mem s'.mem) ∧
      ∀ v, tables.translate (bootServiceFrames fw) v s' = none := by
  have hL := bootServiceFrames_lawful (C := C)
  have hnew := told_ok h
  obtain ⟨hbuilt, hnone⟩ := new_built hL hnew
  have hmade := hnew
  unfold Mapper.new at hnew
  split at hnew
  · cases hnew
  · next page s₁ halloc =>
    obtain ⟨hroot, rfl⟩ := Prod.ext_iff.mp hnew
    obtain rfl := Except.ok.inj hroot
    obtain ⟨haligned, hlt, hfresh, hgiven, hzero, hkeep⟩ := hL.alloc s page s₁ halloc
    have htables : (tree true).tables ((bootServiceFrames fw).read s₁) 4 (rootEntry page) = [page] :=
      (@blank_tree true ((bootServiceFrames fw).read s₁) (fun _ => True) page (fun _ => []) hbuilt.root
        hzero trivial rfl).1
    refine ⟨⟨(Made.new hmade).sound hL gib, ?_, fun q hq hin => ?_⟩, fun q hq => ?_, hnone⟩
    · rw [hgiven]
      exact hX.trans (Set.subset_insert _ _)
    · rw [htables, List.mem_singleton] at hin
      exact hfresh (hin ▸ hX hq)
    · exact same_of_words fun i hi => hkeep q (hX hq) i hi

/-! ### The image under the tree -/

/-- The pages allocated for the image. -/
structure Span (kernelPhys : UInt64) (n : ℕ) : Prop where
  aligned : kernelPhys.toNat % 4096 = 0
  phys : kernelPhys.toNat + 4096 * n ≤ 2 ^ 52
  virt : kernelVma.toNat + 4096 * n ≤ 2 ^ 64

/-- The tree answers so below the kernel's part of the address space; there it shows these rights,
over these bytes. -/
structure Shows (C : Contract fw) (tables : PageTables) (kernelPhys : UInt64) (n : ℕ)
    (a : UInt64 → Option (UInt64 × Paging.Rights × MemoryType)) (r : ℕ → Option Paging.Rights)
    (b : ℕ → UInt8) (s : Loader φ) : Prop where
  tree : Tree C tables (pagesFrom kernelPhys n) s
  low : ∀ v, Canonical v → v.toNat < kernelVma.toNat →
    (tables.translate (bootServiceFrames fw) v s).map Translation.answer = a v
  rights : ∀ v, Canonical v → kernelVma.toNat ≤ v.toNat →
    (tables.translate (bootServiceFrames fw) v s).map Translation.answer =
      (r v.toNat).map fun r => (kernelPhys + (v - kernelVma), r, .normal)
  bytes : ∀ i < 4096 * n, s.mem (kernelPhys.toNat + i) = b (kernelVma.toNat + i)

variable {kernelPhys : UInt64} {n : ℕ} {a : UInt64 → Option (UInt64 × Paging.Rights × MemoryType)}
  {r : ℕ → Option Paging.Rights} {b : ℕ → UInt8}

theorem same_of_pages (hspan : Span kernelPhys n) {m m' : PhysMemory}
    (h : ∀ q ∈ pagesFrom kernelPhys n, PhysMemory.Same q.toNat (q.toNat + 4096) m m') :
    PhysMemory.Same kernelPhys.toNat (kernelPhys.toNat + 4096 * n) m m' := by
  intro x hlo hhi
  have hphys := hspan.phys
  have haligned := hspan.aligned
  have hword : (UInt64.ofNat (x / 4096 * 4096)).toNat = x / 4096 * 4096 :=
    UInt64.toNat_ofNat_of_lt' (by rw [UInt64.size]; omega)
  refine h (UInt64.ofNat (x / 4096 * 4096)) ?_ x (by omega) (by omega)
  exact (mem_pagesFrom haligned hphys).mpr (by omega)

theorem Shows.kept (h : Shows C tables kernelPhys n a r b s) (hspan : Span kernelPhys n)
    (hkept : Kept C s s') : Shows C tables kernelPhys n a r b s' := by
  obtain ⟨htree, htrans⟩ := h.tree.kept hkept
  refine ⟨htree, fun v hv hlo => ?_, fun v hv hlo => ?_, fun i hi => ?_⟩
  · rw [htrans]
    exact h.low v hv hlo
  · rw [htrans]
    exact h.rights v hv hlo
  · rw [← h.bytes i hi]
    exact same_of_pages hspan (fun q hq => hkept.mem q (h.tree.given hq)) _ (by omega) (by omega)

/-- The call for a segment. -/
def segmentCall (kernelPhys vbase : UInt64) (seg : Segment) : Call :=
  ⟨seg.vaddr, kernelPhys + (seg.vaddr - vbase), UInt64.ofNat seg.pages * pageSize,
    segmentRights seg.rights, .normal⟩

/-- The segment lies in the span. -/
def InSpan (n : ℕ) (seg : Segment) : Prop :=
  kernelVma.toNat ≤ seg.vaddr.toNat ∧ seg.vaddr.toNat + seg.pages * 4096 ≤ kernelVma.toNat + 4096 * n

theorem segmentCall_toNat (hspan : Span kernelPhys n) {seg : Segment} (hin : InSpan n seg) :
    (segmentCall kernelPhys kernelVma seg).phys.toNat =
        kernelPhys.toNat + (seg.vaddr.toNat - kernelVma.toNat) ∧
      (segmentCall kernelPhys kernelVma seg).size.toNat = seg.pages * 4096 := by
  obtain ⟨hlo, hhi⟩ := hin
  have hphys := hspan.phys
  have hvirt := hspan.virt
  have hvma : kernelVma.toNat = 2 ^ 64 - 2 ^ 31 := rfl
  have hoff : (seg.vaddr - kernelVma).toNat = seg.vaddr.toNat - kernelVma.toNat :=
    UInt64.toNat_sub_of_le _ _ (UInt64.le_iff_toNat_le.mpr hlo)
  constructor
  · change (kernelPhys + (seg.vaddr - kernelVma)).toNat = _
    rw [UInt64.toNat_add, hoff, Nat.mod_eq_of_lt (by omega)]
  · change (UInt64.ofNat seg.pages * pageSize).toNat = _
    rw [UInt64.toNat_mul, UInt64.toNat_ofNat', show pageSize.toNat = 4096 from rfl,
      Nat.mod_eq_of_lt (by omega : seg.pages < 2 ^ 64), Nat.mod_eq_of_lt (by omega)]

theorem segmentCall_inRange (hspan : Span kernelPhys n) {seg : Segment} (hin : InSpan n seg) :
    InRange seg.vaddr (kernelPhys + (seg.vaddr - kernelVma)) (UInt64.ofNat seg.pages * pageSize) := by
  obtain ⟨hphys, hsize⟩ := segmentCall_toNat hspan hin
  obtain ⟨hlo, hhi⟩ := hin
  have hvaddr := seg.aligned
  have haligned := hspan.aligned
  have hp := hspan.phys
  have hvirt := hspan.virt
  have hvma : kernelVma.toNat = 2 ^ 64 - 2 ^ 31 := rfl
  change (kernelPhys + (seg.vaddr - kernelVma)).toNat = _ at hphys
  change (UInt64.ofNat seg.pages * pageSize).toNat = _ at hsize
  exact ⟨hvaddr, by omega, by omega, .inr ⟨by omega, by omega⟩, by omega⟩

/-- The bytes of a segment's file go to the pages of the image. -/
theorem Shows.copy (h : Shows C tables kernelPhys n a r b s) (hspan : Span kernelPhys n)
    {seg : Segment} (hin : InSpan n seg) :
    Shows C tables kernelPhys n a r (fun v => fileByte v (b v) seg) { s with
      mem := s.mem.copy (kernelPhys + (seg.vaddr - kernelVma)).toNat seg.file.bytes } := by
  obtain ⟨hdest, -⟩ := segmentCall_toNat hspan hin
  change (kernelPhys + (seg.vaddr - kernelVma)).toNat = _ at hdest
  have hfile : seg.file.bytes.length ≤ seg.pages * 4096 := by
    have hle := seg.file_le
    unfold Segment.pages
    change seg.file.bytes.length ≤ _ at hle
    omega
  obtain ⟨hlo, hhi⟩ := hin
  have hphys := hspan.phys
  have haligned := hspan.aligned
  rw [hdest]
  have hbeside : ∀ x, (∀ q ∈ pagesFrom kernelPhys n, x < q.toNat ∨ q.toNat + 4096 ≤ x) →
      s.mem.copy (kernelPhys.toNat + (seg.vaddr.toNat - kernelVma.toNat)) seg.file.bytes x =
        s.mem x := by
    intro x hx
    refine PhysMemory.copy_apart ?_
    by_contra hcov
    have hword : (UInt64.ofNat (x / 4096 * 4096)).toNat = x / 4096 * 4096 :=
      UInt64.toNat_ofNat_of_lt' (by rw [UInt64.size]; omega)
    have hpage := hx (UInt64.ofNat (x / 4096 * 4096))
      ((mem_pagesFrom haligned hphys).mpr (by omega))
    omega
  obtain ⟨htree, htrans⟩ := h.tree.store hbeside
  refine ⟨htree, fun v hv hvma => ?_, fun v hv hvma => ?_, fun i hi => ?_⟩
  · rw [htrans]
    exact h.low v hv hvma
  · rw [htrans]
    exact h.rights v hv hvma
  · have hlen : seg.file.bytes.length = seg.file.length := rfl
    dsimp only
    by_cases hcov : seg.vaddr.toNat ≤ kernelVma.toNat + i ∧
        kernelVma.toNat + i < seg.vaddr.toNat + seg.file.length
    · rw [PhysMemory.copy_at (by omega) (by omega), fileByte, if_pos hcov]
      exact congrArg (seg.file.bytes.getD · 0) (by omega)
    · rw [PhysMemory.copy_apart (by omega), fileByte, if_neg hcov]
      exact h.bytes i hi

/-- And its pages are mapped there. -/
theorem Shows.map (h : Shows C tables kernelPhys n a r b s) (hspan : Span kernelPhys n)
    {seg : Segment} (hin : InSpan n seg)
    (hmap : mapPages fw tables seg.vaddr (kernelPhys + (seg.vaddr - kernelVma))
      (UInt64.ofNat seg.pages * pageSize) (segmentRights seg.rights) s = (.ok u, s')) :
    Shows C tables kernelPhys n a (fun v => pageRights v (r v) seg) b s' := by
  obtain ⟨hdest, hsize⟩ := segmentCall_toNat hspan hin
  change (UInt64.ofNat seg.pages * pageSize).toNat = _ at hsize
  have hmap := told_ok hmap
  obtain ⟨htree, hsame⟩ := h.tree.mapAs hmap
  obtain ⟨-, htrans⟩ := mapAs_translate (bootServiceFrames_lawful (C := C)) h.tree.sound.built
    (segmentCall_inRange hspan hin) hmap
  refine ⟨htree, fun v hv hvma => ?_, fun v hv hvma => ?_, fun i hi => ?_⟩
  · have habove := hin.1
    rw [htrans v hv, if_neg (by omega)]
    exact h.low v hv hvma
  · rw [htrans v hv, hsize, h.rights v hv hvma]
    unfold pageRights
    split
    · have hoff : kernelPhys + (seg.vaddr - kernelVma) + (v - seg.vaddr) =
          kernelPhys + (v - kernelVma) := by grind
      rw [hoff]
      rfl
    · rfl
  · rw [← h.bytes i hi]
    exact same_of_pages hspan hsame _ (by omega) (by omega)

/-- The loop over the segments: after them the image stands. -/
theorem Shows.loadSegments (hspan : Span kernelPhys n) {l : List (Except ElfError Segment)}
    (hl : ∀ seg, .ok seg ∈ l → InSpan n seg) (h : Shows C tables kernelPhys n a r b s)
    (hrun : loadSegments fw tables kernelPhys kernelVma l s = (.ok u, s')) :
    ∃ segs : List Segment, l = segs.map .ok ∧ (∀ seg ∈ segs, seg.rights.isWx = false) ∧
      Shows C tables kernelPhys n a (fun v => segs.foldl (pageRights v) (r v))
        (fun v => segs.foldl (fileByte v) (b v)) s' := by
  induction l generalizing r b s with
  | nil =>
    obtain ⟨-, rfl⟩ := pure_ok hrun
    exact ⟨[], rfl, by simp, h⟩
  | cons item rest ih =>
    cases item with
    | error err => cases hrun
    | ok seg =>
      have hin := hl seg List.mem_cons_self
      rw [Boot.loadSegments] at hrun
      split at hrun
      · cases hrun
      · next hwx =>
        obtain ⟨u₁, s₁, hstore, hrest⟩ := bind_ok hrun
        obtain ⟨-, rfl⟩ := Prod.ext_iff.mp hstore
        obtain ⟨u₂, s₂, hmap, hrest⟩ := bind_ok hrest
        have hnext := (h.copy hspan hin).map hspan hin hmap
        obtain ⟨segs, rfl, hsafe, hshows⟩ :=
          ih (fun seg' hmem => hl seg' (List.mem_cons_of_mem _ hmem)) hnext hrest
        refine ⟨seg :: segs, rfl, ?_, hshows⟩
        rw [List.forall_mem_cons]
        exact ⟨by simpa using hwx, hsafe⟩

/-- A call that maps nothing in the kernel's part. -/
theorem Shows.perform (h : Shows C tables kernelPhys n a r b s) (hspan : Span kernelPhys n) {c : Call}
    (hrange : InRange c.virt c.phys c.size)
    (hbelow : ∀ v, c.Covers v → v.toNat < kernelVma.toNat)
    (hrun : c.perform (bootServiceFrames fw) tables s = (.ok u, s')) :
    Shows C tables kernelPhys n (fun v => if c.Covers v then some (c.answer v) else a v) r b s' := by
  rw [perform_eq] at hrun
  obtain ⟨htree, hsame⟩ := h.tree.mapAs hrun
  obtain ⟨-, htrans⟩ := mapAs_translate (bootServiceFrames_lawful (C := C)) h.tree.sound.built
    hrange hrun
  refine ⟨htree, fun v hv hlt => ?_, fun v hv hle => ?_, fun i hi => ?_⟩
  · rw [htrans v hv, h.low v hv hlt]
    rfl
  · have hbeside : ¬c.Covers v := fun hcov => absurd (hbelow v hcov) (Nat.not_lt.mpr hle)
    rw [htrans v hv]
    exact (if_neg hbeside).trans (h.rights v hv hle)
  · rw [← h.bytes i hi]
    exact same_of_pages hspan hsame _ (by omega) (by omega)

theorem Shows.performAll (hspan : Span kernelPhys n) {cs : List Call}
    (hranges : ∀ c ∈ cs, InRange c.virt c.phys c.size)
    (hbelow : ∀ c ∈ cs, ∀ v, c.Covers v → v.toNat < kernelVma.toNat)
    (h : Shows C tables kernelPhys n a r b s)
    (hrun : Call.performAll (bootServiceFrames fw) tables cs s = (.ok u, s')) :
    Shows C tables kernelPhys n (fun v => (Call.lastAnswer cs v).or (a v)) r b s' := by
  induction cs generalizing a s with
  | nil =>
    obtain rfl := (Prod.ext_iff.mp hrun).2
    exact h
  | cons c cs ih =>
    rw [Call.performAll] at hrun
    split at hrun
    · cases hrun
    · next s₁ hfirst =>
      have hnext := h.perform hspan (hranges c List.mem_cons_self) (hbelow c List.mem_cons_self) hfirst
      have hrest := ih (fun d hd => hranges d (List.mem_cons_of_mem _ hd))
        (fun d hd => hbelow d (List.mem_cons_of_mem _ hd)) hnext hrun
      refine ⟨hrest.tree, fun v hv hlt => ?_, hrest.rights, hrest.bytes⟩
      rw [hrest.low v hv hlt, lastAnswer_cons, Option.or_assoc]
      split <;> rfl

/-! ### Up to the jump -/

/-- Step 4 leaves the image in its pages, and under the tree. -/
theorem placeKernel_shows {gib : Bool} {elf : Elf} {size : UInt64}
    (h : placeKernel fw gib elf s = (.ok (kernelPhys, size, tables), s')) :
    ∃ segs : List Segment, Span kernelPhys (pagesFor size) ∧ elf.segments = segs.map .ok ∧
      (∀ seg ∈ segs, InSpan (pagesFor size) seg) ∧
      Shows C tables kernelPhys (pagesFor size) (fun _ => none) (imageRights segs) (imageByte segs)
        s' := by
  obtain ⟨⟨vbase, vsize⟩, s₁, hlift, h⟩ := bind_ok h
  obtain ⟨hspan, rfl⟩ := lift_ok hlift
  dsimp only at h
  split at h
  · cases h
  · next hbase =>
    obtain rfl := not_not.mp hbase
    obtain ⟨phys, s₂, halloc, h⟩ := bind_ok h
    obtain ⟨tables', s₃, hnew, h⟩ := bind_ok h
    obtain ⟨u', s₄, hload, h⟩ := bind_ok h
    obtain ⟨hpair, rfl⟩ := pure_ok h
    obtain ⟨rfl, hpair⟩ := Prod.ext_iff.mp hpair
    obtain ⟨rfl, rfl⟩ := Prod.ext_iff.mp hpair
    have ha := allocPages_ok (C := C) halloc
    obtain ⟨-, hpaged⟩ := Elf.loadSpan_base hspan
    obtain ⟨hwrap, hsegs⟩ := Elf.loadSpan_spec hspan
    have hpages : 4096 * pagesFor vsize = vsize.toNat := by
      unfold pagesFor
      omega
    have hin : Span phys (pagesFor vsize) := ⟨ha.aligned, ha.bound, by omega⟩
    have hgiven : pagesFrom phys (pagesFor vsize) ⊆ C.given s₂.fw := by
      rw [ha.given]
      exact Set.subset_union_left
    obtain ⟨htree, hsame, hnone⟩ := tree_new hgiven hnew
    have hstart : Shows C tables' phys (pagesFor vsize) (fun _ => none) (imageRights [])
        (imageByte []) s₃ := by
      refine ⟨htree, fun v _ _ => by rw [hnone v]; rfl, fun v _ _ => by rw [hnone v]; rfl,
        fun i hi => ?_⟩
      rw [same_of_pages hin hsame _ (by omega) (by omega), ha.mem]
      exact PhysMemory.fill_at 0 (by omega) (by omega)
    have hinside : ∀ seg, .ok seg ∈ elf.segments → InSpan (pagesFor vsize) seg := by
      intro seg hmem
      rw [InSpan, hpages]
      exact hsegs seg hmem
    obtain ⟨segs, hall, -, hshows⟩ := hstart.loadSegments hin hinside hload
    refine ⟨segs, hin, hall, fun seg hmem => hinside seg ?_, hshows⟩
    rw [hall]
    exact List.mem_map_of_mem hmem

/-- The probe writes to its own buffer. -/
theorem probeMemory_ok {mapped : UInt64} (h : probeMemory fw s = (.ok mapped, s')) :
    Kept C s s' ∧ ∃ map size highest,
      highestRamAddress map size gib.toNat = .ok highest ∧ mapped = mappedBytes highest := by
  obtain ⟨⟨len, size⟩, s₁, hsize, h⟩ := bind_ok h
  obtain ⟨buf, s₂, hbuf, h⟩ := bind_ok h
  obtain ⟨reply, s₃, hmap, h⟩ := bind_ok h
  obtain ⟨u, s₄, hcheck, h⟩ := bind_ok h
  obtain ⟨m, s₅, hmem, h⟩ := bind_ok h
  obtain ⟨highest, s₆, hlift, h⟩ := bind_ok h
  obtain ⟨rfl, rfl⟩ := pure_ok h
  obtain ⟨hhighest, rfl⟩ := lift_ok hlift
  obtain ⟨-, rfl⟩ := Prod.ext_iff.mp hmem
  obtain ⟨-, rfl⟩ := check_ok hcheck
  obtain ⟨-, rfl⟩ := Prod.ext_iff.mp hmap
  refine ⟨?_, _, _, highest, hhighest, rfl⟩
  obtain ⟨hgiven, hsame, -⟩ := memoryMapSize_ok (C := C) hsize
  have ha := allocPages_ok (C := C) hbuf
  have hbound := ha.bound
  set n := UInt64.ofNat (4096 * pagesFor len) with hn
  have hword : n.toNat = 4096 * pagesFor len :=
    UInt64.toNat_ofNat_of_lt' (by rw [UInt64.size]; omega)
  have hraw : fw.getMemoryMap n s₂.fw = ((fw.getMemoryMap n s₂.fw).1, (fw.getMemoryMap n s₂.fw).2) :=
    rfl
  obtain ⟨hgiven', hlen⟩ := C.mapped hraw
  refine ⟨fun q hq => hgiven'.ge (ha.kept.given (hgiven.ge hq)), fun q hq => ?_⟩
  have hclear := ha.clear q (hgiven.ge hq)
  refine (hsame ▸ ha.kept.mem q (hgiven.ge hq)).trans (PhysMemory.same_copy ?_)
  omega

/-- Step 5 maps memory beside the image. -/
theorem Shows.mapAll {mapped : UInt64} {fb : Screen} (hspan : Span kernelPhys n)
    (hfb : fb.phys.toNat + fb.bytes.toNat ≤ window) (hreach : mapped.toNat ≤ window)
    (h : Shows C tables kernelPhys n (fun _ => none) r b s)
    (hrun : mapAll fw tables fb s = (.ok mapped, s')) :
    Shows C tables kernelPhys n (Call.lastAnswer (memoryCalls mapped fb.toFramebuffer)) r b s' := by
  obtain ⟨mapped', s₁, hprobe, hrest⟩ := bind_ok hrun
  obtain ⟨extra, s₂, hmap, hrest⟩ := bind_ok hrest
  obtain ⟨rfl, rfl⟩ := pure_ok hrest
  obtain ⟨hkept, map, size, highest, hhighest, rfl⟩ := probeMemory_ok (C := C) hprobe
  have hw := window_eq
  have haligned : (mappedBytes highest).toNat % 4096 = 0 := by
    have := mappedBytes_whole hhighest
    omega
  have hranges := fun c => memoryCalls_range (c := c) (Framebuffer.addressable_of_le hfb) haligned
    (by omega)
  have hcalls : Call.performAll (bootServiceFrames fw) tables
      (memoryCalls (mappedBytes highest) fb.toFramebuffer) s₁ = (.ok (), s₂) := by
    rw [← mapMemory_eq, told_ok hmap]
    rfl
  have hshows := (h.kept hspan hkept).performAll hspan hranges
    (fun c hc v hcov => memoryCalls_below hfb hreach hc hcov) hcalls
  refine ⟨hshows.tree, fun v hv hlt => ?_, hshows.rights, hshows.bytes⟩
  rw [hshows.low v hv hlt, Option.or_none]

theorem Room.departed {s₁ s₂ : Loader φ} {ready : Ready} (hroom : Room C s s₁ ready.reserved)
    (h : Departed C ready s₁ s₂) : Kept C s s₂ := by
  obtain ⟨m, hbuf, hmem⟩ := h.mem
  refine ⟨hroom.kept.given.trans h.given.ge, fun q hq x hlo hhi => ?_⟩
  have hinfo := hroom.infoClear q hq
  have hmap := hroom.mapClear q hq
  have hregions := hroom.regionsClear q hq
  have hlen := length_flatMap_encode (coalesced (C.map s₂.fw))
  have hroomy := h.room
  have hbytes := { ready.info with
    memoryMapLen := UInt32.ofNat (coalesced (C.map s₂.fw)).length : BootInfo }.length_bytes
  rw [hmem, handed, PhysMemory.copy_apart (by rw [hbytes]; omega), PhysMemory.copy_apart (by omega),
    hbuf x (by omega)]
  exact hroom.kept.mem q hq x hlo hhi

/-- Whatever the loader's maps are, the tree stands. -/
theorem Tree.performAll {cs : List Call} {res : Except MapError Unit} (h : Tree C tables X s)
    (hrun : Call.performAll (bootServiceFrames fw) tables cs s = (res, s')) : Tree C tables X s' := by
  induction cs generalizing s with
  | nil =>
    obtain rfl := (Prod.ext_iff.mp hrun).2
    exact h
  | cons c cs ih =>
    rw [Call.performAll] at hrun
    split at hrun
    · next err s₁ hfirst =>
      obtain rfl := (Prod.ext_iff.mp hrun).2
      rw [perform_eq] at hfirst
      exact (h.mapAs hfirst).1
    · next s₁ hfirst =>
      rw [perform_eq] at hfirst
      exact ih (h.mapAs hfirst).1 hrun

theorem Tree.mapAll {mapped : UInt64} {fb : Screen} (h : Tree C tables X s)
    (hrun : mapAll fw tables fb s = (.ok mapped, s')) : Tree C tables X s' := by
  obtain ⟨mapped', s₁, hprobe, hrest⟩ := bind_ok hrun
  obtain ⟨extra, s₂, hmap, hrest⟩ := bind_ok hrest
  obtain ⟨rfl, rfl⟩ := pure_ok hrest
  have hcalls : Call.performAll (bootServiceFrames fw) tables (memoryCalls mapped' fb.toFramebuffer)
      s₁ = (.ok (), s₂) := by
    rw [← mapMemory_eq, told_ok hmap]
    rfl
  exact ((h.kept (probeMemory_ok (C := C) hprobe).1).1).performAll hcalls

/-- At the jump the tree stands beside the pages of the image, and the hand-off is in a page of the
loader's. -/
theorem stands {gib : Bool} {j : Jump} (h : run fw gib s = (.ok j, s')) : ∃ info,
    BootInfo.readAt j.rdi.toNat s'.mem = some info ∧ j.rdi ∈ C.given s'.fw ∧
      Tree C j.tables (pagesFrom info.kernelPhys (pagesFor info.kernelLen)) s' := by
  obtain ⟨ready, s₁, hprepare, hdepart⟩ := bind_ok h
  obtain ⟨t₁, t₂, t₃, hsteps⟩ := prepare_ok hprepare
  have hroom := reserve_ok (C := C) hsteps.reserve
  obtain ⟨hgone, rfl⟩ := (depart_spec hroom).2 j s' hdepart
  obtain ⟨m, -, hmem⟩ := hgone.mem
  obtain ⟨segs, -, -, -, hplaced⟩ := placeKernel_shows (C := C) hsteps.place
  refine ⟨_, hmem ▸ (handed_read ready.info hroom hgone.room m).1, hgone.given.ge hroom.info, ?_⟩
  exact ((hplaced.tree.mapAll hsteps.map).kept (hroom.departed hgone)).1

/-- What is mapped stays where it is below. -/
theorem memoryCalls_low {mapped : UInt64} {fb : Framebuffer} {v : UInt64} (hv : v.toNat < mapped.toNat)
    (hfb : fb.phys.toNat + fb.bytes.toNat ≤ window) (hreach : mapped.toNat ≤ window) :
    Call.lastAnswer (memoryCalls mapped fb) v = some (v, ⟨true, true, false⟩, .normal) := by
  have hP := toNat_physMapBase
  have hzero : (0 : UInt64).toNat = 0 := rfl
  rw [window_eq] at hreach
  refine lastAnswer_eq_some ⟨_, mem_memoryCalls.mpr (.inl rfl), ?_⟩ fun c hc hcov => ?_
  · unfold Call.Covers
    dsimp only
    omega
  · obtain ⟨hlo, hhi⟩ := hcov
    obtain rfl | rfl | ⟨⟨-, hown⟩, hc⟩ := mem_memoryCalls.mp hc
    · simp [Call.answer]
    · dsimp only at hlo
      omega
    · have hbase := UInt64.le_iff_toNat_le.mp hown
      have hvirt := (Framebuffer.addressable_of_le hfb).pages.virt
      obtain rfl | rfl := mem_screenCalls.mp hc <;> dsimp only at hlo <;> omega

/-- And is seen again through the linear map. -/
theorem memoryCalls_linear {mapped : UInt64} {fb : Framebuffer} {p : UInt64}
    (hp : p.toNat < mapped.toNat) (hfb : fb.phys.toNat + fb.bytes.toNat ≤ window)
    (hreach : mapped.toNat ≤ window) :
    (physMapBase + p).toNat = physMapBase.toNat + p.toNat ∧
      Call.lastAnswer (memoryCalls mapped fb) (physMapBase + p) = some (p, Rights.rw, .normal) := by
  have hP := toNat_physMapBase
  rw [window_eq] at hreach
  have hsum : (physMapBase + p).toNat = physMapBase.toNat + p.toNat := by
    rw [UInt64.toNat_add, Nat.mod_eq_of_lt (by omega)]
  refine ⟨hsum, lastAnswer_eq_some ⟨_, mem_memoryCalls.mpr (.inr (.inl rfl)), ?_⟩ fun c hc hcov => ?_⟩
  · unfold Call.Covers
    dsimp only
    omega
  · rw [memoryCalls_answer (Framebuffer.addressable_of_le hfb) (by omega) hc hcov (by omega)]
    have hback : physMapBase + p - physMapBase = p := by grind
    rw [hback]

end

end StarOs.Boot
