import StarOs.Kernel.Isolation
import StarOs.Kernel.Vm

/-! One kernel half for every tree. A space copies the kernel's top entries when it is made, and
shares from then on the tables they point to. What the kernel maps later goes below entries that
were there, which do not change, so both trees translate the upper half alike; what it maps in
the lower half of its own tree goes to tables no space has. -/

namespace StarOs.Kernel

open Library Library.Loop Paging

/-- The kernel's mappings in its live tree. -/
inductive KernelOp where
  | mapDevice (phys len : UInt64)
  | mapIdentity (phys len : UInt64) (rights : Rights)
  | unmapIdentity (phys len : UInt64)
  /-- `selftest_smap`, up to the store through its page and from there on -/
  | smapMap
  | smapUnmap

inductive HalfOp where
  | space (op : SpaceOp)
  | kernel (op : KernelOp)

/-- The spaces, `DEVICE_NEXT`, the frame of the SMAP page while it is mapped, and, for each
name, which slots of the kernel's top table were present when the space was made. -/
structure Halves (σ : Type) where
  world : World σ
  deviceNext : UInt64
  testFrame : Option UInt64
  present : ℕ → ℕ → Bool

section

variable {σ : Type} (P : FramePool σ) (tables : Tables) (clock : UInt64)

namespace Halves

/-- The slots of the kernel's top table that are present. -/
def slots (m : Mem σ) (i : ℕ) : Bool := Paging.present (m.read P tables.root i)

def spaceStep (s : Halves σ) (op : SpaceOp) : Halves σ :=
  { s with
    world := s.world.step P tables clock op
    present :=
      match op with
      | .new k =>
        if (s.world.spaces k).isNone then Function.update s.present k (slots P tables s.world.mem)
        else s.present
      | _ => s.present }

/-- The self-test is not entered again before it is over. -/
def kernelStep (s : Halves σ) : KernelOp → Halves σ
  | .mapDevice phys len =>
    match mapDevice P tables phys len s.deviceNext s.world.mem with
    | (_, next, m) => { s with world := ⟨m, s.world.spaces⟩, deviceNext := next }
  | .mapIdentity phys len rights =>
    { s with world := ⟨(mapIdentity P tables phys len rights s.world.mem).2, s.world.spaces⟩ }
  | .unmapIdentity phys len =>
    { s with world := ⟨unmapIdentity P tables phys len s.world.mem, s.world.spaces⟩ }
  | .smapMap =>
    match s.testFrame with
    | some _ => s
    | none =>
      match smapMap P tables s.world.mem with
      | (frame, m) => { s with world := ⟨m, s.world.spaces⟩, testFrame := frame }
  | .smapUnmap =>
    match s.testFrame with
    | none => s
    | some frame =>
      { s with
        world := ⟨smapUnmap P tables frame s.world.mem, s.world.spaces⟩
        testFrame := none }

def step (s : Halves σ) : HalfOp → Halves σ
  | .space op => s.spaceStep P tables clock op
  | .kernel op => s.kernelStep P tables op

/-- The addresses a mapping is asked for. -/
def range (s : Halves σ) : KernelOp → Option (UInt64 × UInt64)
  | .mapDevice phys len =>
    if s.deviceNext + deviceSpan phys len > deviceWindow then none
    else some (deviceBase + s.deviceNext, deviceSpan phys len)
  | .mapIdentity phys len _ => some (phys, nextMultipleOf len pageSize)
  | .unmapIdentity _ _ => none
  | .smapMap => some (smapTestAddr, pageSize)
  | .smapUnmap => none

/-- An identity mapping is a supervisor's, and every slot of the upper half that a mapping uses
was present when each space alive was made. -/
def Allowed (s : Halves σ) : HalfOp → Prop
  | .space _ => True
  | .kernel op =>
    (∀ phys len rights, op = .mapIdentity phys len rights → rights.user = false) ∧
    ∀ virt size, s.range op = some (virt, size) → ∀ off : UInt64, off.toNat < size.toNat →
      256 ≤ index (virt + off) 3 → ∀ k, (s.world.spaces k).isSome →
        s.present k (index (virt + off) 3) = true

/-- Before the first space. -/
def start (m₀ : Mem σ) (next : UInt64) : Halves σ := ⟨⟨m₀, fun _ => none⟩, next, none, fun _ _ => false⟩

def Reached (m₀ : Mem σ) (next : UInt64) (s : Halves σ) : Prop :=
  Run (fun s op s' => s.Allowed op ∧ s.step P tables clock op = s') (fun _ => True)
    (start m₀ next) s

/-- The frames that are no space's: the kernel's tables, the clock and the SMAP page. -/
def taken (s : Halves σ) : Set UInt64 :=
  {q | q ∈ kernelTables P tables s.world.mem ∨ q = clock ∨ s.testFrame = some q}

/-- The invariant: the spaces are apart from one another and from the kernel's frames, and their
upper entries are the kernel's. -/
structure Shares (held : σ → Set UInt64) (s : Halves σ) : Prop where
  separate : Separate P tables clock held (s.taken P tables clock) (s.world.mem.read P) s.world
  kernel : KernelOk P held tables s.world.mem
  test : ∀ f, s.testFrame = some f → f ∉ kernelTables P tables s.world.mem ∧ f ≠ clock
  present : ∀ k a, s.world.spaces k = some a → ∀ i < 512, 256 ≤ i → s.present k i = true →
    Paging.present (s.world.mem.read P tables.root i)

/-- What a mapping of the kernel does to the memory, the SMAP page being `test` afterwards. -/
structure Moved (held : σ → Set UInt64) (s : Halves σ) (m' : Mem σ) (test : Option UInt64) :
    Prop where
  keeps : ∀ q ∈ held s.world.mem.pool, q ∉ s.taken P tables clock →
    q ∈ held m'.pool ∧ ∀ i < 512, m'.read P q i = s.world.mem.read P q i
  tick : clock ∈ held m'.pool
  kernel : KernelOk P held tables m'
  grown : ∀ q ∈ kernelTables P tables m',
    q ∈ kernelTables P tables s.world.mem ∨ q ∉ held s.world.mem.pool
  test : ∀ f, test = some f → f ∈ held m'.pool ∧ f ∉ kernelTables P tables m' ∧ f ≠ clock ∧
    (s.testFrame = some f ∨ f ∉ held s.world.mem.pool)
  upper : ∀ k a, s.world.spaces k = some a → ∀ i < 512, 256 ≤ i →
    m'.read P tables.root i = s.world.mem.read P tables.root i

/-- The kernel's half is one for all, and its lower half is seen in no space: no table and no
page of a space is the kernel's, what the kernel maps changes nothing a space translates there,
and neither does what is done to another space; a new space translates nothing there. -/
structure OneHalf (s : Halves σ) : Prop where
  upper : ∀ k a, s.world.spaces k = some a → ∀ v, 256 ≤ index v 3 →
    a.mapper.translate (kernelFrames P) v s.world.mem =
      tables.mapper.translate (kernelFrames P) v s.world.mem
  apart : ∀ k a, s.world.spaces k = some a →
    (∀ q ∈ spaceTables P a.root s.world.mem, q ∉ kernelTables P tables s.world.mem) ∧
      ∀ q ∈ lowerFrames P a.root s.world.mem, s.testFrame ≠ some q
  unseen : ∀ op, s.Allowed op → ∀ k a, s.world.spaces k = some a →
    (∀ spaceOp : SpaceOp, op = .space spaceOp → spaceOp.name ≠ k) → ∀ v, Lower v →
      a.mapper.translate (kernelFrames P) v (s.step P tables clock op).world.mem =
        a.mapper.translate (kernelFrames P) v s.world.mem
  blank : ∀ k a, s.world.spaces k = none →
    (s.step P tables clock (.space (.new k))).world.spaces k = some a → ∀ v, Lower v →
      a.mapper.translate (kernelFrames P) v (s.step P tables clock (.space (.new k))).world.mem =
        none

end Halves

end

namespace Halves

section

variable {σ : Type} {P : FramePool σ} {tables : Tables} {clock : UInt64} {held : σ → Set UInt64}
  {s : Halves σ} {m' : Mem σ} {test : Option UInt64} {k : ℕ} {a : AddressSpace} {v : UInt64}

theorem Shares.held_taken (h : s.Shares P tables clock held) {q : UInt64}
    (hq : q ∈ s.taken P tables clock) : q ∈ held s.world.mem.pool := (h.separate.kernel q hq).1

theorem root_taken (h : s.Shares P tables clock held) : tables.root ∈ s.taken P tables clock :=
  .inl h.kernel.root_mem

/-! ### The kernel's mappings -/

/-- A mapping of the kernel leaves the frames of every space alone. -/
theorem Moved.spared (h : s.Shares P tables clock held) (hm : s.Moved P tables clock held m' test)
    (hk : s.world.spaces k = some a) : ∀ q ∈ spaceFrames P clock a.root s.world.mem,
      q ∈ held m'.pool ∧ ∀ i < 512, m'.read P q i = s.world.mem.read P q i := fun q hq =>
  hm.keeps q ((h.separate.ok k a hk).owned q hq) (h.separate.fresh k a hk q hq)

theorem Moved.shares (h : s.Shares P tables clock held) {s' : Halves σ}
    (hm : s.Moved P tables clock held s'.world.mem s'.testFrame)
    (hspaces : s'.world.spaces = s.world.spaces) (hpresent : s'.present = s.present) :
    s'.Shares P tables clock held := by
  obtain ⟨⟨m', spaces⟩, next, test, present⟩ := s'
  obtain rfl : spaces = s.world.spaces := hspaces
  obtain rfl : present = s.present := hpresent
  have hall := fun {k : ℕ} {a : AddressSpace} (hk : s.world.spaces k = some a) =>
    (h.separate.ok k a hk).untouched (hm.spared h hk) hm.tick
  refine ⟨⟨fun k a hk => (hall hk).1, ?_, ?_, ?_, ?_⟩, hm.kernel, ?_, ?_⟩
  · intro k a hk q hq hin
    have hq : q ∈ spaceFrames P clock a.root s.world.mem := (hall hk).2.1 ▸ hq
    have hold := h.separate.fresh k a hk q hq
    have howned := (h.separate.ok k a hk).owned q hq
    obtain hin | rfl | hin := hin
    · exact (hm.grown q hin).elim (fun hin => hold (.inl hin)) fun hnew => hnew howned
    · exact (h.separate.ok k a hk).clock_apart hq
    · obtain ⟨-, -, -, hin | hnew⟩ := hm.test q hin
      · exact hold (.inr (.inr hin))
      · exact hnew howned
  · intro j k a b hne hj hk q hq hq'
    exact h.separate.apart j k a b hne hj hk q ((hall hj).2.1 ▸ hq) ((hall hk).2.1 ▸ hq')
  · rintro q (hin | rfl | hin)
    · exact ⟨hm.kernel.built.tree.owned q hin, fun _ _ => rfl⟩
    · exact ⟨hm.tick, fun _ _ => rfl⟩
    · exact ⟨(hm.test q hin).1, fun _ _ => rfl⟩
  · intro k a hk i hi hlo
    exact ((hall hk).2.2 i hi).trans ((h.separate.upper k a hk i hi hlo).trans
      (hm.upper k a hk i hi hlo).symm)
  · exact fun f hf => ⟨(hm.test f hf).2.1, (hm.test f hf).2.2.1⟩
  · intro k a hk i hi hlo hp
    have hold := h.present k a hk i hi hlo hp
    rwa [← hm.upper k a hk i hi hlo] at hold

/-- The kernel's tree grew, and took nothing else. -/
theorem moved_of_grew (h : s.Shares P tables clock held) {made : List UInt64}
    (hok : KernelOk P held tables m') (hgrew : KernelGrew P held tables s.world.mem m' made)
    (hupper : ∀ k a, s.world.spaces k = some a → ∀ i < 512, 256 ≤ i →
      m'.read P tables.root i = s.world.mem.read P tables.root i) :
    s.Moved P tables clock held m' s.testFrame where
  keeps q hq hnot := ⟨(hgrew.grown.owned q).mpr (.inr hq),
    hgrew.frame q hq fun hin => hnot (.inl hin)⟩
  tick := (hgrew.grown.owned clock).mpr (.inr (h.held_taken (.inr (.inl rfl))))
  kernel := hok
  grown q hq := (hgrew.tables q hq).symm.imp_right (hgrew.grown.fresh q)
  test f hf := by
    have hheld := h.held_taken (.inr (.inr hf))
    obtain ⟨hnot, hne⟩ := h.test f hf
    refine ⟨(hgrew.grown.owned f).mpr (.inr hheld), fun hin => ?_, hne, .inl hf⟩
    exact (hgrew.tables f hin).elim (fun hnew => hgrew.grown.fresh f hnew hheld) hnot
  upper := hupper

/-- The entries of the upper half that an allowed mapping uses are there. -/
theorem kept_upper (h : s.Shares P tables clock held) {op : KernelOp} {virt size : UInt64}
    {rights : Rights} (ha : s.Allowed (.kernel op)) (hrange : s.range op = some (virt, size))
    (hrights : rights.user = false) {k : ℕ} {a : AddressSpace} (hk : s.world.spaces k = some a)
    {i : ℕ} (hi : i < 512) (hlo : 256 ≤ i) :
    Kept (kernelFrames P) tables.root virt size rights s.world.mem i := by
  intro off hoff hindex
  subst hindex
  have hp := ha.2 virt size hrange off hoff hlo k (by rw [hk]; rfl)
  exact ⟨h.present k a hk _ hi hlo hp, hrights⟩

theorem kernelStep_mapDevice (hP : P.Lawful held) (h : s.Shares P tables clock held)
    {phys len : UInt64} (ha : s.Allowed (.kernel (.mapDevice phys len))) :
    s.Moved P tables clock held (s.kernelStep P tables (.mapDevice phys len)).world.mem s.testFrame := by
  simp only [kernelStep]
  cases hres : mapDevice P tables phys len s.deviceNext s.world.mem with
  | mk res rest =>
    obtain ⟨next, m'⟩ := rest
    obtain ⟨hok, ⟨made, hgrew⟩, hkept⟩ := mapDevice_spec hP h.kernel hres
    exact moved_of_grew h hok hgrew fun k a hk i hi hlo =>
      hkept i hi fun hfits => kept_upper h ha (if_neg hfits) rfl hk hi hlo

theorem kernelStep_mapIdentity (hP : P.Lawful held) (h : s.Shares P tables clock held)
    {phys len : UInt64} {rights : Rights} (ha : s.Allowed (.kernel (.mapIdentity phys len rights))) :
    s.Moved P tables clock held (s.kernelStep P tables (.mapIdentity phys len rights)).world.mem
      s.testFrame := by
  obtain ⟨hok, ⟨made, hgrew⟩, hkept⟩ := mapIdentity_spec hP h.kernel rfl
  exact moved_of_grew h hok hgrew fun k a hk i hi hlo =>
    hkept i hi (kept_upper h ha rfl (ha.1 phys len rights rfl) hk hi hlo)

theorem kernelStep_unmapIdentity (hP : P.Lawful held) (h : s.Shares P tables clock held)
    (phys len : UInt64) :
    s.Moved P tables clock held (s.kernelStep P tables (.unmapIdentity phys len)).world.mem
      s.testFrame := by
  obtain ⟨hok, hgrew, hroot⟩ := unmapIdentity_spec hP h.kernel
  exact moved_of_grew h hok hgrew fun _ _ _ i hi _ => hroot i hi

/-! ### The page of the SMAP self-test -/

/-- Nothing handed out before changed. -/
theorem moved_of_same (h : s.Shares P tables clock held)
    (hsame : ∀ q ∈ held s.world.mem.pool,
      q ∈ held m'.pool ∧ ∀ i < 512, m'.read P q i = s.world.mem.read P q i) :
    s.Moved P tables clock held m' s.testFrame := by
  have hbelow := fun q hq => hsame q (h.held_taken (.inl hq))
  obtain ⟨hok, htables⟩ := h.kernel.congr hbelow
  constructor
  · exact fun q hq _ => hsame q hq
  · exact (hsame clock (h.held_taken (.inr (.inl rfl)))).1
  · exact hok
  · intro q hq
    rw [htables] at hq
    exact .inl hq
  · intro f hf
    obtain ⟨hnot, hne⟩ := h.test f hf
    rw [htables]
    exact ⟨(hsame f (h.held_taken (.inr (.inr hf)))).1, hnot, hne, .inl hf⟩
  · exact fun _ _ _ i hi _ => (hbelow tables.root h.kernel.root_mem).2 i hi

theorem not_test {frame q : UInt64} (hor : s.testFrame = some frame ∨ frame ∉ held s.world.mem.pool)
    (hq : q ∈ held s.world.mem.pool) (htaken : q ∉ s.taken P tables clock) : q ≠ frame := by
  rintro rfl
  exact hor.elim (fun htest => htaken (.inr (.inr htest))) fun hfresh => hfresh hq

/-- The page of the test was stored to, and then the kernel's tree grew. -/
theorem moved_of_stored (h : s.Shares P tables clock held) {m₁ : Mem σ} {frame : UInt64}
    {made : List UInt64} (hnot : frame ∉ kernelTables P tables s.world.mem) (hne : frame ≠ clock)
    (hor : s.testFrame = some frame ∨ frame ∉ held s.world.mem.pool)
    (hmem : frame ∈ held m₁.pool)
    (hstored : ∀ q ∈ held s.world.mem.pool, q ≠ frame →
      q ∈ held m₁.pool ∧ ∀ i < 512, m₁.read P q i = s.world.mem.read P q i)
    (hok : KernelOk P held tables m') (hgrew : KernelGrew P held tables m₁ m' made)
    (hupper : ∀ i < 512, 256 ≤ i → m'.read P tables.root i = m₁.read P tables.root i) :
    s.Moved P tables clock held m' (some frame) := by
  have hbelow : ∀ q ∈ kernelTables P tables s.world.mem,
      q ∈ held m₁.pool ∧ ∀ i < 512, m₁.read P q i = s.world.mem.read P q i := fun q hq =>
    hstored q (h.held_taken (.inl hq)) fun heq => hnot (heq ▸ hq)
  have htables := (h.kernel.congr hbelow).2
  have hstill : ∀ q ∈ held s.world.mem.pool, q ∈ held m₁.pool := by
    intro q hq
    by_cases heq : q = frame
    · exact heq ▸ hmem
    · exact (hstored q hq heq).1
  constructor
  · intro q hq htaken
    have hapart := not_test hor hq htaken
    obtain ⟨hheld, hread⟩ := hstored q hq hapart
    have hbeside : q ∉ kernelTables P tables m₁ := fun hin => htaken (.inl (htables ▸ hin))
    refine ⟨(hgrew.grown.owned q).mpr (.inr hheld), fun i hi => ?_⟩
    exact (hgrew.frame q hheld hbeside i hi).trans (hread i hi)
  · exact (hgrew.grown.owned clock).mpr (.inr (hstill clock (h.held_taken (.inr (.inl rfl)))))
  · exact hok
  · intro q hq
    obtain hnew | hold := hgrew.tables q hq
    · exact .inr fun hin => hgrew.grown.fresh q hnew (hstill q hin)
    · exact .inl (htables ▸ hold)
  · rintro f ⟨⟩
    refine ⟨(hgrew.grown.owned frame).mpr (.inr hmem), fun hin => ?_, hne, hor⟩
    obtain hnew | hold := hgrew.tables frame hin
    · exact hgrew.grown.fresh frame hnew hmem
    · exact hnot (htables ▸ hold)
  · intro k a _ i hi hlo
    exact (hupper i hi hlo).trans ((hbelow tables.root h.kernel.root_mem).2 i hi)

/-- The page of the test is given back. -/
theorem Moved.released (hP : P.Lawful held) {frame : UInt64}
    (hm : s.Moved P tables clock held m' (some frame)) :
    s.Moved P tables clock held (freeFrame P frame m') none := by
  obtain ⟨hmem, hnot, hne, hor⟩ := hm.test frame rfl
  obtain ⟨hheld, hread⟩ := freeFrame_spec hP hmem
  have hstays : ∀ q ∈ held m'.pool, q ≠ frame → q ∈ held (freeFrame P frame m').pool ∧
      ∀ i < 512, (freeFrame P frame m').read P q i = m'.read P q i := fun q hq hapart =>
    ⟨hheld ▸ ⟨hq, hapart⟩, hread q hq hapart⟩
  have hbelow := fun q hq => hstays q (hm.kernel.built.tree.owned q hq) fun heq => hnot (heq ▸ hq)
  obtain ⟨hok, htables⟩ := KernelOk.congr hm.kernel hbelow
  constructor
  · intro q hq htaken
    obtain ⟨hq', hsame⟩ := hm.keeps q hq htaken
    have hapart := not_test hor hq htaken
    obtain ⟨hq'', hsame'⟩ := hstays q hq' hapart
    exact ⟨hq'', fun i hi => (hsame' i hi).trans (hsame i hi)⟩
  · exact (hstays clock hm.tick hne.symm).1
  · exact hok
  · intro q hq
    exact hm.grown q (htables ▸ hq)
  · exact nofun
  · intro k a hk i hi hlo
    exact ((hbelow tables.root hm.kernel.root_mem).2 i hi).trans (hm.upper k a hk i hi hlo)

/-- The page of the test is not in the upper half. -/
theorem smapTestAddr_kept {m : Mem σ} {i : ℕ} (hlo : 256 ≤ i) :
    Kept (kernelFrames P) tables.root smapTestAddr pageSize Rights.rw.toUser m i := by
  intro off hoff hindex
  have haddr : smapTestAddr.toNat = 2 ^ 28 := rfl
  have hsize : pageSize.toNat = 4096 := rfl
  have hsum : (smapTestAddr + off).toNat = 2 ^ 28 + off.toNat := by
    rw [UInt64.toNat_add, haddr, Nat.mod_eq_of_lt]
    omega
  rw [index_eq (by omega), hsum] at hindex
  omega

theorem kernelStep_smapMap (hP : P.Lawful held) (h : s.Shares P tables clock held) :
    s.Moved P tables clock held (s.kernelStep P tables .smapMap).world.mem
      (s.kernelStep P tables .smapMap).testFrame := by
  have hL := kernelFrames_lawful hP
  cases htest : s.testFrame with
  | some frame =>
    simp only [kernelStep, htest]
    have hm := moved_of_same h fun q hq => ⟨hq, fun _ _ => rfl⟩
    rwa [htest] at hm
  | none =>
    simp only [kernelStep, htest, smapMap]
    cases ha : allocFrame P s.world.mem with
    | mk out m₁ =>
      cases out with
      | none =>
        obtain ⟨htook, hread⟩ := allocFrame_none hP ha
        have hm := moved_of_same h fun q hq => ⟨(htook.outstanding q).mpr (.inr hq), hread q hq⟩
        rwa [htest] at hm
      | some frame =>
        obtain ⟨htook, hread⟩ := allocFrame_some hP ha
        have hfresh := htook.fresh frame List.mem_cons_self
        have hmem₁ : frame ∈ held m₁.pool := (htook.outstanding frame).mpr (.inl List.mem_cons_self)
        have hnot : frame ∉ kernelTables P tables s.world.mem := fun hin =>
          hfresh (h.held_taken (.inl hin))
        have hne : frame ≠ clock := fun heq => hfresh (heq ▸ h.held_taken (.inr (.inl rfl)))
        obtain ⟨hheld, hbeside⟩ := write_beside hP hmem₁ (Nat.zero_lt_succ 511) smapSentinel
        have hstored : ∀ q ∈ held s.world.mem.pool, q ≠ frame →
            q ∈ held (m₁.write P frame 0 smapSentinel).pool ∧ ∀ i < 512,
              (m₁.write P frame 0 smapSentinel).read P q i = s.world.mem.read P q i := by
          intro q hq hapart
          have hq₁ := (htook.outstanding q).mpr (.inr hq)
          exact ⟨hheld.symm ▸ hq₁, fun i hi =>
            (hbeside q hq₁ hapart i hi).trans (hread q hq i hi)⟩
        have hmem : frame ∈ held (m₁.write P frame 0 smapSentinel).pool := hheld.symm ▸ hmem₁
        dsimp only
        generalize m₁.write P frame 0 smapSentinel = m₂ at hstored hmem
        have hok := (h.kernel.congr fun q hq =>
          hstored q (h.held_taken (.inl hq)) fun heq => hnot (heq ▸ hq)).1
        unfold Mapper.map
        cases hmap : tables.mapper.mapAs (kernelFrames P) smapTestAddr frame pageSize
            Rights.rw.toUser .normal m₂ with
        | mk res m₃ =>
          obtain ⟨made, hgrew, hkept⟩ := hok.mapAs_footprint hL hmap
          have hm := moved_of_stored h hnot hne (.inr hfresh) hmem hstored (hok.mapAs hL hmap)
            hgrew fun i hi hlo => hkept i hi (smapTestAddr_kept hlo)
          cases res with
          | ok => exact hm
          | error e => exact hm.released hP

theorem kernelStep_smapUnmap (hP : P.Lawful held) (h : s.Shares P tables clock held) :
    s.Moved P tables clock held (s.kernelStep P tables .smapUnmap).world.mem
      (s.kernelStep P tables .smapUnmap).testFrame := by
  cases htest : s.testFrame with
  | none =>
    simp only [kernelStep, htest]
    have hm := moved_of_same h fun q hq => ⟨hq, fun _ _ => rfl⟩
    rwa [htest] at hm
  | some frame =>
    simp only [kernelStep, htest, smapUnmap]
    have hmem₀ := h.held_taken (.inr (.inr htest))
    obtain ⟨hnot, hne⟩ := h.test frame htest
    obtain ⟨hheld, hbeside⟩ := write_beside hP hmem₀ (Nat.zero_lt_succ 511) smapIntruder
    have hstored : ∀ q ∈ held s.world.mem.pool, q ≠ frame →
        q ∈ held (s.world.mem.write P frame 0 smapIntruder).pool ∧ ∀ i < 512,
          (s.world.mem.write P frame 0 smapIntruder).read P q i = s.world.mem.read P q i :=
      fun q hq hapart => ⟨hheld.symm ▸ hq, hbeside q hq hapart⟩
    have hmem : frame ∈ held (s.world.mem.write P frame 0 smapIntruder).pool := hheld.symm ▸ hmem₀
    generalize s.world.mem.write P frame 0 smapIntruder = m₂ at hstored hmem
    have hok := (h.kernel.congr fun q hq =>
      hstored q (h.held_taken (.inl hq)) fun heq => hnot (heq ▸ hq)).1
    obtain ⟨hok', hgrew, hroot⟩ := unmap_spec hP hok smapTestAddr
    exact (moved_of_stored h hnot hne (.inl htest) hmem hstored hok' hgrew
      fun i hi _ => hroot i hi).released hP

/-- What every mapping of the kernel does. -/
theorem kernelStep_moved (hP : P.Lawful held) (h : s.Shares P tables clock held) {op : KernelOp}
    (ha : s.Allowed (.kernel op)) : s.Moved P tables clock held (s.kernelStep P tables op).world.mem
      (s.kernelStep P tables op).testFrame := by
  cases op with
  | mapDevice phys len => exact kernelStep_mapDevice hP h ha
  | mapIdentity phys len rights => exact kernelStep_mapIdentity hP h ha
  | unmapIdentity phys len => exact kernelStep_unmapIdentity hP h phys len
  | smapMap => exact kernelStep_smapMap hP h
  | smapUnmap => exact kernelStep_smapUnmap hP h

theorem kernelStep_keeps (op : KernelOp) :
    (s.kernelStep P tables op).world.spaces = s.world.spaces ∧
      (s.kernelStep P tables op).present = s.present := by
  cases op with
  | mapDevice phys len => exact ⟨rfl, rfl⟩
  | mapIdentity phys len rights => exact ⟨rfl, rfl⟩
  | unmapIdentity phys len => exact ⟨rfl, rfl⟩
  | smapMap => cases htest : s.testFrame <;> simp [kernelStep, htest]
  | smapUnmap => cases htest : s.testFrame <;> simp [kernelStep, htest]

/-! ### What is done to the spaces -/

theorem Separate.rebase {kept : Set UInt64} {orig : UInt64 → ℕ → UInt64} {w : World σ}
    (h : Separate P tables clock held kept orig w) (hroot : tables.root ∈ kept) :
    Separate P tables clock held kept (w.mem.read P) w where
  ok := h.ok
  fresh := h.fresh
  apart := h.apart
  kernel t ht := ⟨(h.kernel t ht).1, fun _ _ => rfl⟩
  upper k a hk i hi hlo := (h.upper k a hk i hi hlo).trans ((h.kernel _ hroot).2 i hi).symm

theorem step_space (op : SpaceOp) :
    (s.step P tables clock (.space op)).world = s.world.step P tables clock op := rfl

/-- A name that is no space's becomes one by `new` only. -/
theorem named_by_new {w : World σ} {op : SpaceOp} (hnone : w.spaces k = none)
    (hk : (w.step P tables clock op).spaces k = some a) : op = .new k := by
  have hsame : w.spaces k ≠ some a := by simp [hnone]
  have hlive : ∀ {j b}, w.spaces j = some b → ∀ r m, (w.put j r m).spaces k ≠ some a := by
    intro j b hj r m
    rw [World.put_spaces, if_neg fun heq => by simp [heq, hj] at hnone]
    exact hsame
  cases op with
  | new j =>
    by_cases hjk : k = j
    · rw [hjk]
    rw [World.step] at hk
    split at hk
    · exact absurd hk hsame
    · split at hk
      · exact absurd hk hsame
      · rw [World.put_spaces, if_neg hjk] at hk
        exact absurd hk hsame
  | load j image =>
    rw [World.step] at hk
    split at hk
    · exact absurd hk hsame
    · next b hj => exact absurd hk (hlive hj _ _)
  | mapStack j =>
    rw [World.step] at hk
    split at hk
    · exact absurd hk hsame
    · next b hj => exact absurd hk (hlive hj _ _)
  | seedId j id =>
    rw [World.step] at hk
    split at hk
    · exact absurd hk hsame
    · next b hj => exact absurd hk (hlive hj _ _)
  | mapClock j =>
    rw [World.step] at hk
    split at hk
    · exact absurd hk hsame
    · next b hj => exact absurd hk (hlive hj _ _)
  | destroy j =>
    rw [World.step] at hk
    split at hk
    · exact absurd hk hsame
    · next b hj => exact absurd hk (hlive hj _ _)

theorem spaceStep_shares (hP : P.Lawful held) (hframed : Framed clock)
    (h : s.Shares P tables clock held) (op : SpaceOp) :
    (s.spaceStep P tables clock op).Shares P tables clock held := by
  have hclock : clock ∈ s.taken P tables clock := .inr (.inl rfl)
  have hroot := root_taken h
  have hsep := h.separate.step hroot (h.separate.spaceStep hP hclock hframed hroot op)
  have hbelow := fun q hq => hsep.kernel q (.inl hq)
  obtain ⟨hok, htables⟩ := h.kernel.congr hbelow
  have htaken : (s.spaceStep P tables clock op).taken P tables clock = s.taken P tables clock := by
    ext q
    simp only [taken, spaceStep, htables]
  constructor
  · rw [htaken]
    exact Separate.rebase hsep hroot
  · exact hok
  · intro f hf
    simp only [spaceStep, htables]
    exact h.test f hf
  · intro k a hk i hi hlo hp
    have hword := (hbelow tables.root h.kernel.root_mem).2 i hi
    simp only [spaceStep] at hk hp ⊢
    rw [hword]
    cases hw : s.world.spaces k with
    | none =>
      obtain rfl := named_by_new hw hk
      simp only [hw, Option.isNone_none, if_true, Function.update_self] at hp
      exact hp
    | some b =>
      refine h.present k b hw i hi hlo ?_
      split at hp
      · next j =>
        split at hp
        · next hnone =>
          rwa [Function.update_of_ne fun heq => by simp [← heq, hw] at hnone] at hp
        · exact hp
      · exact hp

theorem step_shares (hP : P.Lawful held) (hframed : Framed clock) (h : s.Shares P tables clock held)
    {op : HalfOp} (ha : s.Allowed op) : (s.step P tables clock op).Shares P tables clock held := by
  cases op with
  | space op => exact spaceStep_shares hP hframed h op
  | kernel op =>
    obtain ⟨hspaces, hpresent⟩ := kernelStep_keeps op
    exact (kernelStep_moved hP h ha).shares h hspaces hpresent

theorem reached_shares {m₀ : Mem σ} {next : UInt64} (hP : P.Lawful held)
    (hclock : clock ∈ held m₀.pool) (hframed : Framed clock)
    (hmade : Made (kernelFrames P) (heldBy held) tables.root m₀)
    (h : Reached P tables clock m₀ next s) : s.Shares P tables clock held := by
  refine Run.invariant (Shares P tables clock held) h ?_ ?_
  · have hok : KernelOk P held tables m₀ := hmade.sound (kernelFrames_lawful hP) tables.gibPages
    refine ⟨⟨nofun, nofun, nofun, ?_, nofun⟩, hok, nofun, nofun⟩
    rintro q (hin | rfl | hin)
    · exact ⟨hok.built.tree.owned q hin, fun _ _ => rfl⟩
    · exact ⟨hclock, fun _ _ => rfl⟩
    · cases hin
  · rintro s op s' hs - ⟨ha, rfl⟩
    exact step_shares hP hframed hs ha

/-! ### What is translated -/

/-- Walks from one entry are one. -/
theorem translateFrom_entry {F : FrameSource σ} {m : σ} {t u : UInt64} {l : ℕ} {eff : Rights}
    (h : F.read m t (index v l) = F.read m u (index v l)) :
    Mapper.translateFrom F v m (l + 1) t eff = Mapper.translateFrom F v m (l + 1) u eff := by
  rw [Mapper.translateFrom, Mapper.translateFrom, h]

theorem Shares.oneHalf (hP : P.Lawful held) (hframed : Framed clock)
    (h : s.Shares P tables clock held) : s.OneHalf P tables clock := by
  have hclock : clock ∈ s.taken P tables clock := .inr (.inl rfl)
  constructor
  · intro k a hk v hv
    exact translateFrom_entry (h.separate.upper k a hk _ (index_lt v 3) hv)
  · intro k a hk
    have hok := h.separate.ok k a hk
    refine ⟨fun q hq hin => h.separate.fresh k a hk q (hok.tables_sub hq) (.inl hin), ?_⟩
    intro q hq htest
    obtain rfl | hq := mem_lowerFrames clock hq
    · exact (h.test q htest).2 rfl
    · exact h.separate.fresh k a hk q hq (.inr (.inr htest))
  · intro op ha k a hk hname v hv
    have hok := h.separate.ok k a hk
    cases op with
    | kernel op =>
      have hm := kernelStep_moved hP h ha
      exact hok.translate_untouched (hm.spared h hk) hm.tick hv
    | space op =>
      have hstep := h.separate.spaceStep hP hclock hframed (root_taken h) op
      obtain ⟨-, hkeep, htick⟩ := h.separate.beside hstep (hname op rfl).symm hk
      exact hok.translate_untouched hkeep htick hv
  · intro k a hnone hk v hv
    simp only [step, spaceStep, World.step, hnone] at hk ⊢
    cases hnew : AddressSpace.new P tables s.world.mem with
    | mk res m₁ =>
      have hspec := new_spec hP (h.held_taken hclock) (h.held_taken (root_taken h)) hnew
      rw [hnew] at hk
      cases res with
      | error e => exact absurd (hnone.symm.trans hk).symm (Option.some_ne_none _)
      | ok b =>
        obtain ⟨hcreated, -, hempty⟩ := hspec
        obtain rfl : b = a := by simpa [World.put_spaces] using hk
        refine (hcreated.ok.built.translate (.inr hv.index)).trans ?_
        exact congrArg (Option.map (leafTranslation v)) (hempty v hv)

/-- One kernel half for every tree, in every state reached from a kernel's tree however made. -/
theorem one_kernel_half {m₀ : Mem σ} {next : UInt64} (hP : P.Lawful held)
    (hclock : clock ∈ held m₀.pool) (hframed : Framed clock)
    (hmade : Made (kernelFrames P) (heldBy held) tables.root m₀)
    (h : Reached P tables clock m₀ next s) : s.OneHalf P tables clock :=
  (reached_shares hP hclock hframed hmade h).oneHalf hP hframed

end

/-- Sixteen free frames, the first of them the kernel's top table. -/
def treeMemory : Mem FrameStack := ((kernelFrames FrameStack.pool).allocTable smallMemory).2

def treeTables : Tables := ⟨0x200000, false⟩

theorem treeMemory_alloc : (kernelFrames FrameStack.pool).allocTable smallMemory =
    (some treeTables.root, treeMemory) := by
  refine Prod.ext (by decide +kernel) ?_
  rw [treeMemory]

theorem treeMemory_made :
    Made (kernelFrames FrameStack.pool) (heldBy FrameStack.held) treeTables.root treeMemory := by
  have hnew : Mapper.new (kernelFrames FrameStack.pool) false smallMemory =
      (.ok ⟨treeTables.root, false⟩, treeMemory) := by
    rw [Mapper.new, treeMemory_alloc]
  exact .new hnew

/-- A device is mapped, a space is made, and another device is mapped. -/
def oneDevice : Halves FrameStack :=
  (start treeMemory 0).step FrameStack.pool treeTables smallClock (.kernel (.mapDevice 0xFEE00000 0x400))

def oneSpace : Halves FrameStack :=
  oneDevice.step FrameStack.pool treeTables smallClock (.space (.new 0))

def twoDevices : Halves FrameStack :=
  oneSpace.step FrameStack.pool treeTables smallClock (.kernel (.mapDevice 0xFEC00000 0x20))

theorem oneSpace_slot : oneSpace.present 0 288 = true := by decide +kernel

/-- The second device lies in the slot of the first. -/
theorem second_allowed : oneSpace.Allowed (.kernel (.mapDevice 0xFEC00000 0x20)) := by
  refine ⟨nofun, fun virt size hrange off hoff _ k hk => ?_⟩
  have hnext : oneSpace.range (.mapDevice 0xFEC00000 0x20) = some (0xFFFF900000001000, 4096) := by
    decide +kernel
  obtain ⟨rfl, rfl⟩ : (0xFFFF900000001000 : UInt64) = virt ∧ (4096 : UInt64) = size := by
    simpa using hnext.symm.trans hrange
  have hindex : index (0xFFFF900000001000 + off) 3 = 288 := by
    have hvirt : (0xFFFF900000001000 : UInt64).toNat = 0xFFFF900000001000 := rfl
    have hsize : (4096 : UInt64).toNat = 4096 := rfl
    rw [index_eq (by omega), UInt64.toNat_add, hvirt]
    omega
  obtain ⟨a, ha⟩ := Option.isSome_iff_exists.mp hk
  have hnone : oneDevice.world.spaces k = none := by
    rw [oneDevice, step, (kernelStep_keeps _).1]
    rfl
  rw [oneSpace, step_space] at ha
  have hname : 0 = k := SpaceOp.new.inj (named_by_new hnone ha)
  rw [hindex, ← hname]
  exact oneSpace_slot

theorem twoDevices_reached :
    Reached FrameStack.pool treeTables smallClock treeMemory 0 twoDevices := by
  have hfirst : (start treeMemory 0).Allowed (.kernel (.mapDevice 0xFEE00000 0x400)) :=
    ⟨nofun, fun _ _ _ _ _ _ k hk => by cases hk⟩
  have hdevice : Reached FrameStack.pool treeTables smallClock treeMemory 0 oneDevice :=
    .tail .refl trivial ⟨hfirst, rfl⟩
  have hspace : Reached FrameStack.pool treeTables smallClock treeMemory 0 oneSpace :=
    .tail hdevice (a := .space (.new 0)) trivial ⟨trivial, rfl⟩
  exact .tail hspace trivial ⟨second_allowed, rfl⟩

theorem treeMemory_held : smallClock ∈ FrameStack.held treeMemory.pool := by
  obtain ⟨htook, -⟩ := allocTable_some FrameStack.lawful treeMemory_alloc
  exact (htook.outstanding smallClock).mpr (.inr smallMemory_held.2.1)

theorem one_kernel_half_devices : twoDevices.OneHalf FrameStack.pool treeTables smallClock :=
  one_kernel_half FrameStack.lawful treeMemory_held smallMemory_held.2.2 treeMemory_made
    twoDevices_reached

end Halves

end StarOs.Kernel
