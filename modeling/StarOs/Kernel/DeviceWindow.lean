import StarOs.Bootinfo.Handoff
import StarOs.Kernel.SharedHalf

/-! The window of the device registers over a whole boot. Every call takes the next pages of the
window whether it can map them or not, so no two calls meet in it, and what a call that fails has
mapped lies in pages nobody else is given. -/

namespace StarOs.Kernel

open Bootinfo Library Paging

structure Request where
  phys : UInt64
  len : UInt64

/-- The bytes of the window that a request takes: whole pages. -/
def Request.span (r : Request) : ℕ := (r.len.toNat + r.phys.toNat % 4096 + 4095) / 4096 * 4096

theorem Request.span_spec (r : Request) : r.span % 4096 = 0 ∧
    r.len.toNat + r.phys.toNat % 4096 ≤ r.span ∧
      r.span < r.len.toNat + r.phys.toNat % 4096 + 4096 := by
  unfold span
  omega

/-- A call of `map_device` and its answer. -/
abbrev Answered := Request × Except String UInt64

section

variable {σ : Type} (P : FramePool σ) (held : σ → Set UInt64) (tables : Tables)

/-- The calls made since the tree was as in `m₀`, and where `DEVICE_NEXT` and the memory stand.
Between calls memory changes as it may, the kernel's tables apart. -/
inductive DeviceRun (m₀ : Mem σ) : List Answered → UInt64 → Mem σ → Prop where
  | start : DeviceRun m₀ [] 0 m₀
  | call {calls : List Answered} {next next' : UInt64} {m m' : Mem σ} {r : Request}
      {res : Except String UInt64} (h : DeviceRun m₀ calls next m)
      (hcall : mapDevice P tables r.phys r.len next m = (res, next', m')) :
      DeviceRun m₀ (calls ++ [(r, res)]) next' m'
  | elsewhere {calls : List Answered} {next : UInt64} {m m' : Mem σ} (h : DeviceRun m₀ calls next m)
      (hkeep : ∀ q ∈ kernelTables P tables m,
        q ∈ held m'.pool ∧ ∀ i < 512, m'.read P q i = m.read P q i) : DeviceRun m₀ calls next m'

/-- How much of the window the calls have asked for. -/
def requested (calls : List Answered) : ℕ := (calls.map fun c => c.1.span).sum

/-- All bytes asked for at `c` are found where it answered. -/
def Found (m : Mem σ) (c : Answered) : Prop :=
  ∀ v, c.2 = .ok v → ∀ i < c.1.len.toNat,
    (tables.mapper.translate (kernelFrames P) (v + UInt64.ofNat i) m).map Translation.answer =
      some (c.1.phys + UInt64.ofNat i, Rights.rw, .device)

end

/-- The answers of two calls do not overlap. -/
def Answered.Apart (c c' : Answered) : Prop :=
  ∀ v v', c.2 = .ok v → c'.2 = .ok v' →
    v.toNat + c.1.len.toNat ≤ v'.toNat ∨ v'.toNat + c'.1.len.toNat ≤ v.toNat

/-- The answer to a call lies in the window. -/
def Inside (c : Answered) : Prop :=
  ∀ v, c.2 = .ok v → deviceBase.toNat ≤ v.toNat ∧ v.toNat + c.1.len.toNat ≤ deviceBase.toNat + 2 ^ 30

section

variable {σ : Type} {P : FramePool σ} {held : σ → Set UInt64} {tables : Tables} {m m' m₀ : Mem σ}
  {next next' v : UInt64} {r : Request} {res : Except String UInt64} {calls : List Answered}

theorem KernelOk.translate_congr (h : KernelOk P held tables m)
    (hkeep : ∀ q ∈ kernelTables P tables m,
      q ∈ held m'.pool ∧ ∀ i < 512, m'.read P q i = m.read P q i) (v : UInt64) :
    tables.mapper.translate (kernelFrames P) v m' = tables.mapper.translate (kernelFrames P) v m := by
  have hagree : (tree true).AgreeOn (m.read P) (m'.read P) (kernelTables P tables m) :=
    fun q hq => (hkeep q hq).2
  rw [h.built.translate (.inl rfl), (h.congr hkeep).1.built.translate (.inl rfl)]
  have hleaf : leafAt true (m'.read P) 4 (rootEntry tables.root) v =
      leafAt true (m.read P) 4 (rootEntry tables.root) v := by
    simp only [leafAt]
    rw [TableTree.walk_congr (index_lt_fanout (.inl rfl)) hagree]
  exact congrArg (Option.map (leafTranslation v)) hleaf

/-- The window's arithmetic: where a request's registers begin in their first page, and how many
pages it takes. -/
structure Placed (r : Request) (next : UInt64) : Prop where
  offset : (r.phys &&& (pageSize - 1)).toNat = r.phys.toNat % 4096
  base : (r.phys - (r.phys &&& (pageSize - 1))).toNat = r.phys.toNat - r.phys.toNat % 4096
  span : (deviceSpan r.phys r.len).toNat = r.span
  next : (next + deviceSpan r.phys r.len).toNat = next.toNat + r.span

theorem placed (hphys : r.phys.toNat + r.len.toNat ≤ 2 ^ 52)
    (hnext : next.toNat + r.span < 2 ^ 64) : Placed r next := by
  have hpage : pageSize.toNat = 4096 := rfl
  have hoffset : (r.phys &&& (pageSize - 1)).toNat = r.phys.toNat % 4096 := (page_parts r.phys 0).1
  have hbase : (r.phys - (r.phys &&& (pageSize - 1))).toNat = r.phys.toNat - r.phys.toNat % 4096 := by
    rw [UInt64.toNat_sub_of_le, hoffset]
    rw [UInt64.le_iff_toNat_le, hoffset]
    exact Nat.mod_le _ _
  have hsum : (r.len + (r.phys &&& (pageSize - 1))).toNat = r.len.toNat + r.phys.toNat % 4096 := by
    rw [UInt64.toNat_add, hoffset, Nat.mod_eq_of_lt (by omega)]
  have hspan : (deviceSpan r.phys r.len).toNat = r.span := by
    obtain ⟨hmod, hle, hlt⟩ := nextMultipleOf_spec
      (x := r.len + (r.phys &&& (pageSize - 1))) (n := pageSize) (by omega) (by omega)
    rw [hsum] at hle hlt
    rw [hpage] at hmod hlt
    unfold deviceSpan Request.span
    omega
  refine ⟨hoffset, hbase, hspan, ?_⟩
  rw [UInt64.toNat_add, hspan, Nat.mod_eq_of_lt hnext]

theorem toNat_deviceVirt (hroom : next.toNat + r.span ≤ 2 ^ 30) :
    (deviceBase + next).toNat = deviceBase.toNat + next.toNat := by
  have hD := toNat_deviceBase
  rw [UInt64.toNat_add, Nat.mod_eq_of_lt (by omega)]

theorem Placed.answer (hp : Placed r next) (hroom : next.toNat + r.span ≤ 2 ^ 30) :
    (deviceBase + next + (r.phys &&& (pageSize - 1))).toNat =
      deviceBase.toNat + next.toNat + r.phys.toNat % 4096 := by
  have hD := toNat_deviceBase
  rw [UInt64.toNat_add, toNat_deviceVirt hroom, hp.offset, Nat.mod_eq_of_lt (by omega)]

/-- What `map_as` is asked for. -/
theorem Placed.range (hp : Placed r next) (hphys : r.phys.toNat + r.len.toNat ≤ 2 ^ 52)
    (haligned : next.toNat % 4096 = 0) (hroom : next.toNat + r.span ≤ 2 ^ 30) :
    InRange (deviceBase + next) (r.phys - (r.phys &&& (pageSize - 1))) (deviceSpan r.phys r.len) := by
  have hD := toNat_deviceBase
  have hvirt := toNat_deviceVirt hroom
  have hbase := hp.base
  have hspan := hp.span
  obtain ⟨hpages, hcover, hless⟩ := r.span_spec
  exact ⟨by omega, by omega, by omega, .inr ⟨by omega, by omega⟩, by omega⟩

/-- The bytes from the answer on, and what the mapping takes each of them to. -/
theorem Placed.byte (hp : Placed r next) (hphys : r.phys.toNat + r.len.toNat ≤ 2 ^ 52)
    (hroom : next.toNat + r.span ≤ 2 ^ 30) {i : ℕ} (hi : i < r.len.toNat) :
    (deviceBase + next + (r.phys &&& (pageSize - 1)) + UInt64.ofNat i).toNat =
        deviceBase.toNat + next.toNat + r.phys.toNat % 4096 + i ∧
      Canonical (deviceBase + next + (r.phys &&& (pageSize - 1)) + UInt64.ofNat i) ∧
      r.phys - (r.phys &&& (pageSize - 1)) + (deviceBase + next + (r.phys &&& (pageSize - 1)) +
        UInt64.ofNat i - (deviceBase + next)) = r.phys + UInt64.ofNat i := by
  have hD := toNat_deviceBase
  have hword : (UInt64.ofNat i).toNat = i :=
    UInt64.toNat_ofNat_of_lt' (by rw [UInt64.size]; omega)
  obtain ⟨-, hcover, -⟩ := r.span_spec
  have hat : (deviceBase + next + (r.phys &&& (pageSize - 1)) + UInt64.ofNat i).toNat =
      deviceBase.toNat + next.toNat + r.phys.toNat % 4096 + i := by
    rw [UInt64.toNat_add, hp.answer hroom, hword, Nat.mod_eq_of_lt (by omega)]
  refine ⟨hat, ?_, by grind⟩
  unfold Canonical
  omega

/-- One call: it takes its span of the window, changes no translation outside that span, and where
it succeeds every byte asked for is found at the answer. -/
theorem mapDevice_window (hP : P.Lawful held) (hk : KernelOk P held tables m)
    (hphys : r.phys.toNat + r.len.toNat ≤ 2 ^ 52) (hnext : next.toNat + r.span < 2 ^ 64)
    (haligned : next.toNat % 4096 = 0)
    (h : mapDevice P tables r.phys r.len next m = (res, next', m')) :
    KernelOk P held tables m' ∧ next'.toNat = next.toNat + r.span ∧
      (∀ v, Canonical v → ¬(deviceBase.toNat + next.toNat ≤ v.toNat ∧
          v.toNat < deviceBase.toNat + (next.toNat + r.span) ∧ next.toNat + r.span ≤ 2 ^ 30) →
        tables.mapper.translate (kernelFrames P) v m' =
          tables.mapper.translate (kernelFrames P) v m) ∧
      (∀ v, res = .ok v → next.toNat + r.span ≤ 2 ^ 30 ∧
        v.toNat = deviceBase.toNat + next.toNat + r.phys.toNat % 4096) ∧
      Found P tables m' (r, res) := by
  have hp := placed hphys hnext
  have hwindow : deviceWindow.toNat = 2 ^ 30 := rfl
  have hok := (mapDevice_spec hP hk h).1
  have hfits : ¬next + deviceSpan r.phys r.len > deviceWindow ↔ next.toNat + r.span ≤ 2 ^ 30 := by
    rw [gt_iff_lt, UInt64.lt_iff_toNat_lt, hp.next, hwindow, Nat.not_lt]
  unfold mapDevice Mapper.mapDevice at h
  dsimp only at h
  split at h
  · next hfull =>
    obtain ⟨rfl, hrest⟩ := Prod.ext_iff.mp h
    obtain ⟨rfl, rfl⟩ := Prod.ext_iff.mp hrest
    exact ⟨hok, hp.next, fun _ _ _ => rfl, nofun, nofun⟩
  · next hfree =>
    have hroom := hfits.mp hfree
    have hvirt := toNat_deviceVirt hroom
    have hspan := hp.span
    cases hmap : tables.mapper.mapAs (kernelFrames P) (deviceBase + next)
        (r.phys - (r.phys &&& (pageSize - 1))) (deviceSpan r.phys r.len) Rights.rw .device m with
    | mk out m₁ =>
      rw [hmap] at h
      obtain ⟨-, hmapped, hfailed⟩ := mapAs_mapped (kernelFrames_lawful hP) hk.built
        (hp.range hphys haligned hroom) hmap
      cases out with
      | error err =>
        obtain ⟨rfl, hrest⟩ := Prod.ext_iff.mp h
        obtain ⟨rfl, rfl⟩ := Prod.ext_iff.mp hrest
        obtain ⟨-, k, hk', hfront⟩ := hfailed err rfl
        exact ⟨hok, hp.next, fun v hv hout => (hfront v hv).2 (by omega), nofun, nofun⟩
      | ok u =>
        obtain ⟨rfl, hrest⟩ := Prod.ext_iff.mp h
        obtain ⟨rfl, rfl⟩ := Prod.ext_iff.mp hrest
        have hall := hmapped rfl
        refine ⟨hok, hp.next, fun v hv hout => (hall v hv).2 (by omega), ?_, ?_⟩
        · rintro v heq
          obtain rfl := Except.ok.inj heq
          exact ⟨hroom, hp.answer hroom⟩
        · rintro v heq i hi
          obtain rfl := Except.ok.inj heq
          have hi : i < r.len.toNat := hi
          obtain ⟨hat, hcanon, hphysical⟩ := hp.byte hphys hroom hi
          obtain ⟨-, hcover, -⟩ := r.span_spec
          rw [(hall _ hcanon).1 (by omega), hphysical]

theorem requested_append (calls : List Answered) (c : Answered) :
    requested (calls ++ [c]) = requested calls + c.1.span := by
  simp [requested]

theorem requested_aligned (calls : List Answered) : requested calls % 4096 = 0 := by
  induction calls with
  | nil => rfl
  | cons c calls ih =>
    obtain ⟨hpages, -⟩ := c.1.span_spec
    rw [requested, List.map_cons, List.sum_cons]
    unfold requested at ih
    omega

/-- Where a run stands: the answers lie below the next page of the window, and outside the window
nothing has changed. -/
structure Given (P : FramePool σ) (held : σ → Set UInt64) (tables : Tables) (m₀ : Mem σ)
    (calls : List Answered) (next : UInt64) (m : Mem σ) : Prop where
  kernel : KernelOk P held tables m
  advanced : next.toNat = requested calls
  below : ∀ c ∈ calls, ∀ v, c.2 = .ok v → deviceBase.toNat ≤ v.toNat ∧
    v.toNat + c.1.len.toNat ≤ deviceBase.toNat + min next.toNat (2 ^ 30)
  apart : calls.Pairwise Answered.Apart
  found : ∀ c ∈ calls, Found P tables m c
  kept : ∀ v, Canonical v → ¬(deviceBase.toNat ≤ v.toNat ∧ v.toNat < deviceBase.toNat + 2 ^ 30) →
    tables.mapper.translate (kernelFrames P) v m = tables.mapper.translate (kernelFrames P) v m₀

/-- The bytes of the answers so far lie below what the next call is given. -/
theorem Given.byte (h : Given P held tables m₀ calls next m) {c : Answered} (hc : c ∈ calls)
    (hv : c.2 = .ok v) {i : ℕ} (hi : i < c.1.len.toNat) :
    (v + UInt64.ofNat i).toNat = v.toNat + i ∧ Canonical (v + UInt64.ofNat i) ∧
      v.toNat + i < deviceBase.toNat + next.toNat := by
  have hD := toNat_deviceBase
  obtain ⟨hlo, hhi⟩ := h.below c hc v hv
  have hword : (UInt64.ofNat i).toNat = i :=
    UInt64.toNat_ofNat_of_lt' (by rw [UInt64.size]; omega)
  have hsum : (v + UInt64.ofNat i).toNat = v.toNat + i := by
    rw [UInt64.toNat_add, hword, Nat.mod_eq_of_lt (by omega)]
  refine ⟨hsum, ?_, by omega⟩
  unfold Canonical
  omega

/-- The next call leaves them as they are. -/
theorem Given.steady (h : Given P held tables m₀ calls next m) (hP : P.Lawful held)
    (hphys : r.phys.toNat + r.len.toNat ≤ 2 ^ 52) (hnext : requested calls + r.span < 2 ^ 64)
    (hcall : mapDevice P tables r.phys r.len next m = (res, next', m')) {c : Answered}
    (hc : c ∈ calls) (hv : c.2 = .ok v) {i : ℕ} (hi : i < c.1.len.toNat) :
    tables.mapper.translate (kernelFrames P) (v + UInt64.ofNat i) m' =
      tables.mapper.translate (kernelFrames P) (v + UInt64.ofNat i) m := by
  obtain ⟨hsum, hcanon, hlt⟩ := h.byte hc hv hi
  obtain ⟨-, -, hother, -⟩ := mapDevice_window hP h.kernel hphys (h.advanced ▸ hnext)
    (h.advanced ▸ requested_aligned calls) hcall
  exact hother _ hcanon (by omega)

theorem Given.call (h : Given P held tables m₀ calls next m) (hP : P.Lawful held)
    (hphys : r.phys.toNat + r.len.toNat ≤ 2 ^ 52) (hnext : requested calls + r.span < 2 ^ 64)
    (hcall : mapDevice P tables r.phys r.len next m = (res, next', m')) :
    Given P held tables m₀ (calls ++ [(r, res)]) next' m' := by
  obtain ⟨hok, hadvance, hother, hanswer, hfound⟩ := mapDevice_window hP h.kernel hphys
    (h.advanced ▸ hnext) (h.advanced ▸ requested_aligned calls) hcall
  obtain ⟨-, hcover, -⟩ := r.span_spec
  have hnew : ∀ v, res = .ok v → deviceBase.toNat + next.toNat ≤ v.toNat ∧
      v.toNat + r.len.toNat ≤ deviceBase.toNat + min next'.toNat (2 ^ 30) := by
    intro v hv
    obtain ⟨hfits, hat⟩ := hanswer v hv
    omega
  refine ⟨hok, ?_, ?_, ?_, ?_, ?_⟩
  · rw [requested_append, hadvance, h.advanced]
  · intro c hc v hv
    rcases List.mem_append.mp hc with hc | hc
    · have := h.below c hc v hv
      omega
    · obtain rfl := List.mem_singleton.mp hc
      have := hnew v hv
      exact ⟨by omega, this.2⟩
  · refine List.pairwise_append.mpr ⟨h.apart, List.pairwise_singleton _ _, ?_⟩
    intro c hc c' hc' v v' hv hv'
    obtain rfl := List.mem_singleton.mp hc'
    have hold := h.below c hc v hv
    have := hnew v' hv'
    exact .inl (by omega)
  · intro c hc
    rcases List.mem_append.mp hc with hc | hc
    · intro v hv i hi
      rw [h.steady hP hphys hnext hcall hc hv hi]
      exact h.found c hc v hv i hi
    · obtain rfl := List.mem_singleton.mp hc
      exact hfound
  · intro v hv hout
    rw [hother v hv (by omega)]
    exact h.kept v hv hout

theorem Given.elsewhere (h : Given P held tables m₀ calls next m)
    (hkeep : ∀ q ∈ kernelTables P tables m,
      q ∈ held m'.pool ∧ ∀ i < 512, m'.read P q i = m.read P q i) :
    Given P held tables m₀ calls next m' := by
  have hsame := h.kernel.translate_congr hkeep
  refine ⟨(h.kernel.congr hkeep).1, h.advanced, h.below, h.apart, fun c hc v hv i hi => ?_, ?_⟩
  · rw [hsame]
    exact h.found c hc v hv i hi
  · intro v hv hout
    rw [hsame]
    exact h.kept v hv hout

theorem DeviceRun.given (hP : P.Lawful held) (hk : KernelOk P held tables m₀)
    (h : DeviceRun P held tables m₀ calls next m)
    (hphys : ∀ c ∈ calls, c.1.phys.toNat + c.1.len.toNat ≤ 2 ^ 52)
    (htotal : requested calls < 2 ^ 64) : Given P held tables m₀ calls next m := by
  induction h with
  | start => exact ⟨hk, rfl, nofun, .nil, nofun, fun _ _ _ => rfl⟩
  | call h hcall ih =>
    rw [requested_append] at htotal
    refine (ih (fun c hc => hphys c (List.mem_append_left _ hc)) (by omega)).call hP ?_ htotal hcall
    exact hphys _ (List.mem_append_right _ (List.mem_singleton.mpr rfl))
  | elsewhere h hkeep ih => exact (ih hphys htotal).elsewhere hkeep

/-- What holds of the device windows in every state of a boot. -/
structure Windows (P : FramePool σ) (tables : Tables) (linear : UInt64) (m₀ : Mem σ)
    (calls : List Answered) (m : Mem σ) : Prop where
  apart : calls.Pairwise Answered.Apart
  inside : ∀ c ∈ calls, Inside c
  found : ∀ c ∈ calls, Found P tables m c
  linear : ∀ v, physMapBase.toNat ≤ v.toNat → v.toNat < physMapBase.toNat + linear.toNat →
    tables.mapper.translate (kernelFrames P) v m = tables.mapper.translate (kernelFrames P) v m₀

/-- A call changes no translation of an answer given before it. -/
def Steady (P : FramePool σ) (tables : Tables) (calls : List Answered) (m m' : Mem σ) : Prop :=
  ∀ c ∈ calls, ∀ v, c.2 = .ok v → ∀ i < c.1.len.toNat,
    tables.mapper.translate (kernelFrames P) (v + UInt64.ofNat i) m' =
      tables.mapper.translate (kernelFrames P) (v + UInt64.ofNat i) m

/-- In a kernel's tree whose linear map ends before the device window, however many calls there
are and however each of them ends: the answers lie apart in the window, every byte asked for is
found there uncached, writable, not executable and the kernel's alone, and neither the answers
before a call nor the linear map are changed by it. -/
theorem device_windows (hP : P.Lawful held)
    (hmade : Made (kernelFrames P) (heldBy held) tables.root m₀)
    (h : DeviceRun P held tables m₀ calls next m)
    (hphys : ∀ c ∈ calls, c.1.phys.toNat + c.1.len.toNat ≤ 2 ^ 52)
    (htotal : requested calls < 2 ^ 64) (linear : UInt64) (hlinear : linear.toNat ≤ 2 ^ 44) :
    Windows P tables linear m₀ calls m ∧
      ∀ (r : Request) res next' m', mapDevice P tables r.phys r.len next m = (res, next', m') →
        r.phys.toNat + r.len.toNat ≤ 2 ^ 52 → requested calls + r.span < 2 ^ 64 →
          Steady P tables calls m m' := by
  have hk : KernelOk P held tables m₀ := hmade.sound (kernelFrames_lawful hP) tables.gibPages
  have hgiven := h.given hP hk hphys htotal
  have hB := toNat_physMapBase
  have hD := toNat_deviceBase
  refine ⟨⟨hgiven.apart, fun c hc v hv => ?_, hgiven.found, fun v hlo hhi => ?_⟩, ?_⟩
  · have := hgiven.below c hc v hv
    omega
  · refine hgiven.kept v ?_ (by omega)
    unfold Canonical
    omega
  · intro r res next' m' hcall hr hnext c hc v hv i hi
    exact hgiven.steady hP hr hnext hcall hc hv hi

end

/-- The local controller's registers, then some that begin inside a page and fill more than one. -/
def localApic : Request := ⟨0xFEE00000, 0x400⟩

def unaligned : Request := ⟨0xFEC00008, 0x2000⟩

def firstCall : Except String UInt64 × UInt64 × Mem FrameStack :=
  mapDevice FrameStack.pool Halves.treeTables localApic.phys localApic.len 0 Halves.treeMemory

def secondCall : Except String UInt64 × UInt64 × Mem FrameStack :=
  mapDevice FrameStack.pool Halves.treeTables unaligned.phys unaligned.len firstCall.2.1 firstCall.2.2

theorem device_windows_two :
    [firstCall.1, secondCall.1] = [.ok 0xFFFF900000000000, .ok 0xFFFF900000001008] ∧
      Windows FrameStack.pool Halves.treeTables 0x100000000 Halves.treeMemory
        [(localApic, firstCall.1), (unaligned, secondCall.1)] secondCall.2.2 := by
  have hfirst : DeviceRun FrameStack.pool FrameStack.held Halves.treeTables Halves.treeMemory
      [(localApic, firstCall.1)] firstCall.2.1 firstCall.2.2 := .call .start (by rw [firstCall])
  have hrun : DeviceRun FrameStack.pool FrameStack.held Halves.treeTables Halves.treeMemory
      [(localApic, firstCall.1), (unaligned, secondCall.1)] secondCall.2.1 secondCall.2.2 :=
    .call hfirst (by rw [secondCall])
  refine ⟨by decide +kernel, (device_windows FrameStack.lawful Halves.treeMemory_made hrun ?_ ?_
    0x100000000 (by decide)).1⟩
  · intro c hc
    fin_cases hc <;> decide
  · decide

end StarOs.Kernel
