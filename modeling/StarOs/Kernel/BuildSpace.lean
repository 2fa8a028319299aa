import StarOs.Kernel.Isolation

/-! `build_space` as a whole: what it takes from the pool, and what of that the space it returns
has. A build that fails drops its handle, and with it every frame it took. -/

namespace StarOs.Kernel

open Library Library.Loop Paging

/-- No two of the pages a build maps are the same page: those of the image, the stack, the
identity page and the clock. -/
def PageDisjoint (elf : Elf64.Elf) (id : UInt8) : Prop :=
  ((imagePages elf.segments ++ [stackPage] ++ [idPage id]).map (·.number) ++
    [userClockVa.toNat / 4096]).Nodup

section

variable {σ : Type} {P : FramePool σ} {held : σ → Set UInt64} {tables : Tables} {clock : UInt64}
  {m m' m₀ m₁ : Mem σ} {a a' : AddressSpace} {taken lost new gone : List UInt64}
  {pages pages' : List Page} {image : Slice} {id : UInt8} {r : Except String AddressSpace}

theorem Created.taken_ne_nil (h : Created P held clock tables a m m' taken lost) : taken ≠ [] :=
  List.ne_nil_of_mem (h.mem_taken h.ok.root_owned)

/-- A space under construction: made at `m`, blank at `m₀`, and given these pages since. -/
structure Underway (P : FramePool σ) (held : σ → Set UInt64) (clock : UInt64) (tables : Tables)
    (a : AddressSpace) (pages : List Page) (m m₀ m' : Mem σ) (taken lost : List UInt64) : Prop where
  created : Created P held clock tables a m m' taken lost
  laid : Laid P held a.root pages m₀ m' lost

theorem Underway.worked (h : Underway P held clock tables a pages m m₀ m₁ taken lost)
    (hw : Worked P held clock a a' m₁ m' new gone) (hlaid : Laid P held a.root pages' m₁ m' gone) :
    Underway P held clock tables a' (pages ++ pages') m m₀ m' (new ++ taken) (gone ++ lost) := by
  refine ⟨h.created.worked hw, ?_⟩
  rw [hw.root]
  exact h.laid.append hw hlaid

/-- What a build leaves behind, whether it succeeds or not. -/
structure BuildEnd (P : FramePool σ) (held : σ → Set UInt64) (clock : UInt64) (tables : Tables)
    (image : Slice) (id : UInt8) (r : Except String AddressSpace) (m m' : Mem σ)
    (taken : List UInt64) : Prop where
  took : Took held m m' taken
  frame : ∀ t ∈ held m.pool, ∀ i < 512, m'.read P t i = m.read P t i
  ok : ∀ a, r = .ok a → ∃ elf lost, Elf64.Elf.parse image = .ok elf ∧
    Created P held clock tables a m m' taken lost ∧ (PageDisjoint elf id → lost = [])
  error : ∀ e, r = .error e → (taken = [] ↔
    (∃ e, Elf64.Elf.parse image = .error e) ∨ (P.allocPages m.pool).1 = none)

/-- A build abandoned after its top table was made. -/
theorem Created.abandoned (h : Created P held clock tables a m m' taken lost)
    {elf : Elf64.Elf} (hparse : Elf64.Elf.parse image = .ok elf)
    (halloc : (P.allocPages m.pool).1 ≠ none) (message : String) :
    BuildEnd P held clock tables image id (.error message) m m' taken := by
  refine ⟨h.took, h.frame, nofun, fun _ _ => ⟨fun hnil => absurd hnil h.taken_ne_nil, ?_⟩⟩
  rintro (⟨e, he⟩ | hnone)
  · rw [hparse] at he
    cases he
  · exact absurd hnone halloc

theorem new_error_iff : (∃ e, (AddressSpace.new P tables m).1 = .error e) ↔
    (P.allocPages m.pool).1 = none := by
  unfold AddressSpace.new allocFrame
  cases h : P.allocPages m.pool with
  | mk frame s =>
    cases frame with
    | none => simp
    | some frame => simp

theorem buildSpace_spec (hP : P.Lawful held) (hclock : clock ∈ held m.pool)
    (hframed : Framed clock) (hroot : tables.root ∈ held m.pool)
    (h : buildSpace P tables clock image id m = (r, m')) :
    ∃ taken, BuildEnd P held clock tables image id r m m' taken := by
  unfold buildSpace at h
  split at h
  · next e hparse =>
    obtain ⟨rfl, rfl⟩ := Prod.ext_iff.mp h
    exact ⟨[], Took.refl _, fun _ _ _ _ => rfl, nofun, fun _ _ => by simp [hparse]⟩
  · next elf hparse =>
    split at h
    · next e m₀ ha =>
      obtain ⟨rfl, rfl⟩ := Prod.ext_iff.mp h
      obtain ⟨htook, hread⟩ := new_spec hP hclock hroot ha
      have hnone := new_error_iff.mp ⟨e, congrArg Prod.fst ha⟩
      exact ⟨[], htook, hread, nofun, fun _ _ => ⟨fun _ => .inr hnone, fun _ => rfl⟩⟩
    · next a₀ m₀ ha =>
      obtain ⟨hnew, -, hblank⟩ := new_spec hP hclock hroot ha
      have halloc : (P.allocPages m.pool).1 ≠ none := by
        intro hnone
        obtain ⟨e, he⟩ := new_error_iff.mpr hnone
        rw [ha] at he
        cases he
      have hstart : Underway P held clock tables a₀ [] m m₀ m₀ [a₀.root] [] := ⟨hnew, Laid.nil⟩
      split at h
      · next e a₁ m₁ hload =>
        obtain ⟨rfl, rfl⟩ := Prod.ext_iff.mp h
        obtain ⟨new, gone, hw, -⟩ := load_spec hP hnew.ok hload
        exact ⟨_, (hnew.worked hw).abandoned hparse halloc e⟩
      · next a₁ m₁ hload =>
        obtain ⟨new, gone, hw, hlaid⟩ := load_spec hP hnew.ok hload
        have hloaded := hstart.worked hw (hlaid rfl).1
        split at h
        · next e m₂ hstack =>
          obtain ⟨rfl, rfl⟩ := Prod.ext_iff.mp h
          obtain ⟨new', gone', hw', -⟩ := mapStack_spec hP hw.ok hstack
          exact ⟨_, (hloaded.created.worked hw').abandoned hparse halloc e⟩
        · next m₂ hstack =>
          obtain ⟨new', gone', hw', hlaid'⟩ := mapStack_spec hP hw.ok hstack
          have hstacked := hloaded.worked hw' (hlaid' rfl)
          split at h
          · next e m₃ hid =>
            obtain ⟨rfl, rfl⟩ := Prod.ext_iff.mp h
            obtain ⟨new'', gone'', hw'', -⟩ := seedId_spec hP hw'.ok hid
            exact ⟨_, (hstacked.created.worked hw'').abandoned hparse halloc e⟩
          · next m₃ hid =>
            obtain ⟨new'', gone'', hw'', hlaid''⟩ := seedId_spec hP hw'.ok hid
            have hseeded := hstacked.worked hw'' (hlaid'' rfl)
            split at h
            · next e a₄ m₄ hmap =>
              obtain ⟨rfl, rfl⟩ := Prod.ext_iff.mp h
              obtain ⟨last, out, hw₄, -⟩ := mapClock_spec hP hframed hw''.ok hmap
              exact ⟨_, (hseeded.created.worked hw₄).abandoned hparse halloc e⟩
            · next a₄ m₄ hmap =>
              obtain ⟨rfl, rfl⟩ := Prod.ext_iff.mp h
              obtain ⟨last, out, hw₄, -, hout⟩ := mapClock_spec hP hframed hw''.ok hmap
              have hdone := hseeded.created.worked hw₄
              refine ⟨_, hdone.took, hdone.frame, fun a hres => ?_, nofun⟩
              obtain rfl := Except.ok.inj hres
              refine ⟨elf, _, hparse, hdone, fun hdisjoint => ?_⟩
              obtain ⟨hnd, -, hapart⟩ := List.nodup_append.mp hdisjoint
              -- every page was unmapped when its turn came, the clock's too
              have hlost := hseeded.laid.lost hnd fun v hv _ => by
                rw [hw.root]
                exact hblank v hv
              have hclockPage : latest (([] : List Page) ++ imagePages elf.segments ++ [stackPage] ++
                  [idPage id]) (userClockVa.toNat / 4096) = none :=
                latest_eq_none.mpr fun hmem => hapart _ hmem _ List.mem_cons_self rfl
              have hunmapped := hseeded.laid.miss userClockVa (by unfold Lower; decide) hclockPage
              rw [hlost, hout rfl (hunmapped.trans ?_), List.append_nil]
              rw [hw.root]
              exact hblank userClockVa (by unfold Lower; decide)

/-- A failed build costs nothing exactly when it failed before it took anything. -/
theorem failed_build_free_iff (hP : P.Lawful held) (hclock : clock ∈ held m.pool)
    (hframed : Framed clock) (hroot : tables.root ∈ held m.pool) {e : String}
    (h : buildSpace P tables clock image id m = (.error e, m')) :
    (framesInUse m' = framesInUse m ↔
      (∃ e, Elf64.Elf.parse image = .error e) ∨ (P.allocPages m.pool).1 = none) ∧
    (held m'.pool = held m.pool ↔
      (∃ e, Elf64.Elf.parse image = .error e) ∨ (P.allocPages m.pool).1 = none) := by
  obtain ⟨taken, hend⟩ := buildSpace_spec hP hclock hframed hroot h
  have hiff := hend.error e rfl
  exact ⟨hend.took.inUse_eq_iff.trans hiff, hend.took.held_eq_iff.trans hiff⟩

end

theorem onePageImage_numbers {elf : Elf64.Elf} (hparse : Elf64.Elf.parse onePageImage = .ok elf) :
    (imagePages elf.segments).map (·.number) = [0x400] := by
  have hpages : (Elf64.Elf.parse onePageImage).toOption.map
      (fun elf => (imagePages elf.segments).map (·.number)) = some [0x400] := by decide +kernel
  rw [hparse] at hpages
  exact Option.some.inj hpages

/-- No segments, and an entry point that is the first address that is not a user's. -/
def highEntryImage : Slice where
  bytes := elfHeader [0, 0, 0, 0, 0, 0x80, 0, 0] 0
  length_le := by decide

theorem highEntryImage_build : ∃ m', buildSpace FrameStack.pool smallTables smallClock
    highEntryImage 1 smallMemory = (.error "the image's entry point is not a user address", m') :=
  ⟨_, rfl⟩

theorem highEntryImage_parse :
    ¬((∃ e, Elf64.Elf.parse highEntryImage = .error e) ∨
      (FrameStack.pool.allocPages smallMemory.pool).1 = none) := by
  rintro (⟨e, he⟩ | hnone)
  · cases he
  · cases hnone

/-- The frame of its top table is not given back. -/
theorem failed_build_keeps_frame :
    ¬∀ e m', buildSpace FrameStack.pool smallTables smallClock highEntryImage 1 smallMemory =
      (.error e, m') → framesInUse m' = framesInUse smallMemory := by
  intro hclaim
  obtain ⟨m', h⟩ := highEntryImage_build
  obtain ⟨taken, hend⟩ := buildSpace_spec FrameStack.lawful smallMemory_held.2.1
    smallMemory_held.2.2 smallMemory_held.1 h
  have hnil := hend.took.inUse_eq_iff.mp (hclaim _ m' h)
  exact highEntryImage_parse ((hend.error _ rfl).mp hnil)

theorem failed_build_free_iff_entry : ∃ m', framesInUse m' ≠ framesInUse smallMemory ∧
    buildSpace FrameStack.pool smallTables smallClock highEntryImage 1 smallMemory =
      (.error "the image's entry point is not a user address", m') := by
  obtain ⟨m', h⟩ := highEntryImage_build
  refine ⟨m', ?_, h⟩
  exact (failed_build_free_iff FrameStack.lawful smallMemory_held.2.1 smallMemory_held.2.2
    smallMemory_held.1 h).1.not.mpr highEntryImage_parse

end StarOs.Kernel
