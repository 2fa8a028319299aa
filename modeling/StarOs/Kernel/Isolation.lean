import StarOs.Kernel.Loading
import StarOs.Kernel.Teardown
import StarOs.Library.Run

/-! Any number of address spaces over one pool. Whatever is done to them, in whatever order and
with whatever success, no two of them own the same frame, and what they share is the kernel's. -/

namespace StarOs.Kernel

open Library Library.Loop Paging

/-- The memory and the spaces that live in it, by name. -/
structure World (σ : Type) where
  mem : Mem σ
  spaces : ℕ → Option AddressSpace

inductive SpaceOp where
  | new (k : ℕ)
  | load (k : ℕ) (image : Elf64.Elf)
  | mapStack (k : ℕ)
  | seedId (k : ℕ) (id : UInt8)
  | mapClock (k : ℕ)
  | destroy (k : ℕ)

/-- The name an operation is about. -/
def SpaceOp.name : SpaceOp → ℕ
  | .new k | .load k _ | .mapStack k | .seedId k _ | .mapClock k | .destroy k => k

section

variable {σ : Type} (P : FramePool σ) (tables : Tables) (clock : UInt64)

namespace World

/-- The space named `k` becomes `a`. -/
def put (w : World σ) (k : ℕ) (a : Option AddressSpace) (m : Mem σ) : World σ :=
  ⟨m, Function.update w.spaces k a⟩

/-- An operation on a name that is not free, or on no space, is none. -/
def step (w : World σ) : SpaceOp → World σ
  | .new k =>
    match w.spaces k with
    | some _ => w
    | none =>
      match AddressSpace.new P tables w.mem with
      | (.error _, m) => { w with mem := m }
      | (.ok a, m) => w.put k (some a) m
  | .load k image =>
    match w.spaces k with
    | none => w
    | some a =>
      match a.load P image w.mem with
      | (_, a, m) => w.put k (some a) m
  | .mapStack k =>
    match w.spaces k with
    | none => w
    | some a => w.put k (some a) (a.mapStack P w.mem).2
  | .seedId k id =>
    match w.spaces k with
    | none => w
    | some a => w.put k (some a) (a.seedId P id w.mem).2
  | .mapClock k =>
    match w.spaces k with
    | none => w
    | some a =>
      match a.mapClock P clock w.mem with
      | (_, a, m) => w.put k (some a) m
  | .destroy k =>
    match w.spaces k with
    | none => w
    | some a => w.put k none (a.destroy P w.mem).2

/-- The states that operations reach from a memory without spaces. -/
def Reached (m₀ : Mem σ) (w : World σ) : Prop :=
  Run (fun w op w' => step P tables clock w op = w') (fun _ => True) ⟨m₀, fun _ => none⟩ w

end World

/-- Every frame the lower half of a tree reaches: tables and pages. -/
def lowerFrames (root : UInt64) (m : Mem σ) : List UInt64 :=
  (tree false).cells (fun e => if present e then [e &&& pteAddrMask] else []) (m.read P) 4
    (rootEntry root)

/-- What the spaces of a world owe one another, and the kernel. -/
structure Isolated (m₀ : Mem σ) (w : World σ) : Prop where
  apart : ∀ j k a b, j ≠ k → w.spaces j = some a → w.spaces k = some b →
    ∀ q ∈ lowerFrames P a.root w.mem, q ∈ lowerFrames P b.root w.mem → q = clock
  readOnly : ∀ k a, w.spaces k = some a → ∀ v t, index v 3 < 256 →
    a.mapper.translate (kernelFrames P) v w.mem = some t →
    t.phys.toNat / 4096 = clock.toNat / 4096 → t.rights.write = false
  kernelHalf : ∀ k a, w.spaces k = some a → ∀ i < 512, 256 ≤ i →
    w.mem.read P a.root i = m₀.read P tables.root i
  unreachable : ∀ k a, w.spaces k = some a →
    userReachableKernelSlots P a.root w.mem = userReachableKernelSlots P tables.root m₀
  writeXorExec : ∀ k a, w.spaces k = some a → ∀ v t,
    index v 3 < 256 ∨ userReachableKernelSlots P tables.root m₀ = 0 →
    a.mapper.translate (kernelFrames P) v w.mem = some t → t.rights.user →
    ¬(t.rights.write ∧ t.rights.exec)

/-- The invariant: each space is in order and owns what no other space owns and none of the
frames that are `kept`, whose words are those of `orig`. -/
structure Separate (held : σ → Set UInt64) (kept : Set UInt64) (orig : UInt64 → ℕ → UInt64)
    (w : World σ) : Prop where
  ok : ∀ k a, w.spaces k = some a → SpaceOk P held clock a w.mem
  fresh : ∀ k a, w.spaces k = some a → ∀ q ∈ spaceFrames P clock a.root w.mem, q ∉ kept
  apart : ∀ j k a b, j ≠ k → w.spaces j = some a → w.spaces k = some b →
    ∀ q ∈ spaceFrames P clock a.root w.mem, q ∉ spaceFrames P clock b.root w.mem
  kernel : ∀ t ∈ kept, t ∈ held w.mem.pool ∧ ∀ i < 512, w.mem.read P t i = orig t i
  upper : ∀ k a, w.spaces k = some a → ∀ i < 512, 256 ≤ i →
    w.mem.read P a.root i = orig tables.root i

/-- What one operation on the name `k` does to a world. -/
inductive SpaceStep (held : σ → Set UInt64) (w : World σ) (k : ℕ) : World σ → Prop
  | idle : SpaceStep held w k w
  | failed {m' : Mem σ} {taken : List UInt64} (htook : Took held w.mem m' taken)
      (hread : ∀ t ∈ held w.mem.pool, ∀ i < 512, m'.read P t i = w.mem.read P t i) :
      SpaceStep held w k ⟨m', w.spaces⟩
  | created {a : AddressSpace} {m' : Mem σ} {taken lost : List UInt64} (hfree : w.spaces k = none)
      (hnew : Created P held clock tables a w.mem m' taken lost) :
      SpaceStep held w k (w.put k (some a) m')
  | worked {a a' : AddressSpace} {m' : Mem σ} {taken lost : List UInt64}
      (hk : w.spaces k = some a) (hw : Worked P held clock a a' w.mem m' taken lost) :
      SpaceStep held w k (w.put k (some a') m')
  | freed {a : AddressSpace} {m' : Mem σ} {gone : List UInt64} (hk : w.spaces k = some a)
      (hf : Freed P held w.mem m' gone)
      (hperm : gone.Perm (spaceFrames P clock a.root w.mem)) : SpaceStep held w k (w.put k none m')

end

section

variable {σ : Type} {P : FramePool σ} {held : σ → Set UInt64} {tables : Tables} {clock : UInt64}
  {kept : Set UInt64} {orig : UInt64 → ℕ → UInt64} {m₀ m' : Mem σ} {w : World σ} {k : ℕ}
  {a a' : AddressSpace} {taken lost gone : List UInt64}

theorem World.put_spaces {r : Option AddressSpace} {j : ℕ} :
    (w.put k r m').spaces j = if j = k then r else w.spaces j := Function.update_apply _ _ _ _

/-- One space, or none, takes the place of `k`; the frames of the others are left alone. -/
theorem Separate.put (h : Separate P tables clock held kept orig w) {r : Option AddressSpace}
    (hothers : ∀ j b, j ≠ k → w.spaces j = some b → SpaceOk P held clock b m' ∧
      spaceFrames P clock b.root m' = spaceFrames P clock b.root w.mem ∧
      ∀ i < 512, m'.read P b.root i = w.mem.read P b.root i)
    (hkernel : ∀ t ∈ kept,
      t ∈ held m'.pool ∧ ∀ i < 512, m'.read P t i = w.mem.read P t i)
    (hself : ∀ b, r = some b → SpaceOk P held clock b m' ∧
      (∀ q ∈ spaceFrames P clock b.root m', q ∉ kept ∧ ∀ j c, j ≠ k →
        w.spaces j = some c → q ∉ spaceFrames P clock c.root w.mem) ∧
      ∀ i < 512, 256 ≤ i → m'.read P b.root i = orig tables.root i) :
    Separate P tables clock held kept orig (w.put k r m') := by
  have hcases : ∀ j b, (w.put k r m').spaces j = some b →
      (j = k ∧ r = some b) ∨ (j ≠ k ∧ w.spaces j = some b) := by
    intro j b hj
    rw [World.put_spaces] at hj
    split at hj
    · next hjk => exact .inl ⟨hjk, hj⟩
    · next hjk => exact .inr ⟨hjk, hj⟩
  constructor
  · intro j b hj
    obtain ⟨rfl, hb⟩ | ⟨hne, hb⟩ := hcases j b hj
    · exact (hself b hb).1
    · exact (hothers j b hne hb).1
  · intro j b hj q hq
    obtain ⟨rfl, hb⟩ | ⟨hne, hb⟩ := hcases j b hj
    · exact ((hself b hb).2.1 q hq).1
    · exact h.fresh j b hb q ((hothers j b hne hb).2.1 ▸ hq)
  · intro i j b c hij hi hj q hq hq'
    obtain ⟨rfl, hb⟩ | ⟨hne, hb⟩ := hcases i b hi
    · obtain ⟨rfl, -⟩ | ⟨hne', hc⟩ := hcases j c hj
      · exact hij rfl
      · exact ((hself b hb).2.1 q hq).2 j c hne' hc ((hothers j c hne' hc).2.1 ▸ hq')
    · have hold : q ∈ spaceFrames P clock b.root w.mem := (hothers i b hne hb).2.1 ▸ hq
      obtain ⟨rfl, hc⟩ | ⟨hne', hc⟩ := hcases j c hj
      · exact ((hself c hc).2.1 q hq').2 i b hne hb hold
      · exact h.apart i j b c hij hb hc q hold ((hothers j c hne' hc).2.1 ▸ hq')
  · intro t ht
    obtain ⟨hmem, hread⟩ := hkernel t ht
    exact ⟨hmem, fun i hi => (hread i hi).trans ((h.kernel t ht).2 i hi)⟩
  · intro j b hj i hi hlo
    obtain ⟨rfl, hb⟩ | ⟨hne, hb⟩ := hcases j b hj
    · exact (hself b hb).2.2 i hi hlo
    · exact ((hothers j b hne hb).2.2 i hi).trans (h.upper j b hb i hi hlo)

theorem Freed.keeps {m m' : Mem σ} (hf : Freed P held m m' gone) {q : UInt64}
    (hq : q ∈ held m.pool) (hnot : q ∉ gone) :
    q ∈ held m'.pool ∧ ∀ i < 512, m'.read P q i = m.read P q i :=
  ⟨(hf.outstanding q).mpr ⟨hq, hnot⟩, hf.kept q hq hnot⟩

theorem Worked.keeps {m m' : Mem σ} (hw : Worked P held clock a a' m m' taken lost)
    (hok : SpaceOk P held clock a m) {q : UInt64} (hq : q ∈ held m.pool)
    (hnot : q ∉ spaceFrames P clock a.root m) :
    q ∈ held m'.pool ∧ ∀ i < 512, m'.read P q i = m.read P q i :=
  ⟨(hw.took.outstanding q).mpr (.inr hq), hw.frame q hq fun ht => hnot (hok.tables_sub ht)⟩

theorem SpaceOk.still_held {m m' : Mem σ} (_h : SpaceOk P held clock a m)
    (hkeep : ∀ q ∈ spaceFrames P clock a.root m,
      q ∈ held m'.pool ∧ ∀ i < 512, m'.read P q i = m.read P q i) (hclock : clock ∈ held m'.pool) :
    ∀ q ∈ held m.pool, q ∈ spaceFrames P clock a.root m ∨ q = clock → q ∈ held m'.pool := by
  rintro q - (hq | rfl)
  · exact (hkeep q hq).1
  · exact hclock

/-- A space none of whose frames changes or goes is as it was. -/
theorem SpaceOk.untouched {m m' : Mem σ} (h : SpaceOk P held clock a m)
    (hkeep : ∀ q ∈ spaceFrames P clock a.root m,
      q ∈ held m'.pool ∧ ∀ i < 512, m'.read P q i = m.read P q i) (hclock : clock ∈ held m'.pool) :
    SpaceOk P held clock a m' ∧
      spaceFrames P clock a.root m' = spaceFrames P clock a.root m ∧
      ∀ i < 512, m'.read P a.root i = m.read P a.root i := by
  obtain ⟨hok, hframes, -⟩ := h.congr (h.still_held hkeep hclock) fun t ht =>
    (hkeep t (h.tables_sub ht)).2
  exact ⟨hok, hframes, (hkeep a.root h.root_owned).2⟩

/-- Nor does such a space translate its half otherwise. -/
theorem SpaceOk.translate_untouched {m m' : Mem σ} (h : SpaceOk P held clock a m)
    (hkeep : ∀ q ∈ spaceFrames P clock a.root m,
      q ∈ held m'.pool ∧ ∀ i < 512, m'.read P q i = m.read P q i)
    (hclock : clock ∈ held m'.pool) {v : UInt64} (hv : Lower v) :
    a.mapper.translate (kernelFrames P) v m' = a.mapper.translate (kernelFrames P) v m := by
  obtain ⟨hok, -, -, hleaf⟩ := h.congr (h.still_held hkeep hclock) fun t ht =>
    (hkeep t (h.tables_sub ht)).2
  rw [h.built.translate (.inr hv.index), hok.built.translate (.inr hv.index)]
  exact congrArg (Option.map (leafTranslation v)) (hleaf v hv)

/-- While frames are taken and nothing held changes, every space is as it was. -/
theorem Separate.beside_taken (h : Separate P tables clock held kept orig w)
    (htook : Took held w.mem m' taken)
    (hread : ∀ t ∈ held w.mem.pool, ∀ i < 512, m'.read P t i = w.mem.read P t i) {j : ℕ}
    {b : AddressSpace} (hj : w.spaces j = some b) : SpaceOk P held clock b m' ∧
      spaceFrames P clock b.root m' = spaceFrames P clock b.root w.mem ∧
      ∀ i < 512, m'.read P b.root i = w.mem.read P b.root i := by
  have hok := h.ok j b hj
  refine hok.untouched (fun q hq => ?_) ((htook.outstanding clock).mpr (.inr hok.clock_held))
  exact ⟨(htook.outstanding q).mpr (.inr (hok.owned q hq)), hread q (hok.owned q hq)⟩

/-- An operation on one name leaves the frames of every other space alone. -/
theorem Separate.beside (h : Separate P tables clock held kept orig w) {w' : World σ}
    (hs : SpaceStep P tables clock held w k w') {j : ℕ} {b : AddressSpace} (hne : j ≠ k)
    (hj : w.spaces j = some b) : w'.spaces j = some b ∧
      (∀ q ∈ spaceFrames P clock b.root w.mem,
        q ∈ held w'.mem.pool ∧ ∀ i < 512, w'.mem.read P q i = w.mem.read P q i) ∧
      clock ∈ held w'.mem.pool := by
  have hok := h.ok j b hj
  cases hs with
  | idle => exact ⟨hj, fun q hq => ⟨hok.owned q hq, fun _ _ => rfl⟩, hok.clock_held⟩
  | failed htook hread =>
    refine ⟨hj, fun q hq => ?_, (htook.outstanding clock).mpr (.inr hok.clock_held)⟩
    exact ⟨(htook.outstanding q).mpr (.inr (hok.owned q hq)), hread q (hok.owned q hq)⟩
  | created hfree hnew =>
    refine ⟨by rw [World.put_spaces, if_neg hne, hj], fun q hq => ?_, ?_⟩
    · exact ⟨(hnew.took.outstanding q).mpr (.inr (hok.owned q hq)), hnew.frame q (hok.owned q hq)⟩
    · exact (hnew.took.outstanding clock).mpr (.inr hok.clock_held)
  | @worked a a' m' taken lost hk hw =>
    refine ⟨by rw [World.put_spaces, if_neg hne, hj], fun q hq => ?_, ?_⟩
    · exact hw.keeps (h.ok k a hk) (hok.owned q hq) (h.apart j k b a hne hj hk q hq)
    · exact (hw.took.outstanding clock).mpr (.inr hok.clock_held)
  | @freed a m' gone hk hf hperm =>
    refine ⟨by rw [World.put_spaces, if_neg hne, hj], fun q hq => hf.keeps (hok.owned q hq) ?_, ?_⟩
    · exact fun hgone => h.apart j k b a hne hj hk q hq (hperm.mem_iff.mp hgone)
    · exact (hf.keeps hok.clock_held fun hgone =>
        (h.ok k a hk).clock_apart (hperm.mem_iff.mp hgone)).1

/-- An operation on one name leaves every other space as it was. -/
theorem Separate.others (h : Separate P tables clock held kept orig w) {w' : World σ}
    (hs : SpaceStep P tables clock held w k w') {j : ℕ} {b : AddressSpace} (hne : j ≠ k)
    (hj : w.spaces j = some b) : SpaceOk P held clock b w'.mem ∧
      spaceFrames P clock b.root w'.mem = spaceFrames P clock b.root w.mem ∧
      ∀ i < 512, w'.mem.read P b.root i = w.mem.read P b.root i := by
  obtain ⟨-, hkeep, htick⟩ := h.beside hs hne hj
  exact (h.ok j b hj).untouched hkeep htick

/-- Frames were taken, and nothing held before changed. -/
theorem Separate.took (h : Separate P tables clock held kept orig w) (htook : Took held w.mem m' taken)
    (hread : ∀ t ∈ held w.mem.pool, ∀ i < 512, m'.read P t i = w.mem.read P t i) :
    Separate P tables clock held kept orig ⟨m', w.spaces⟩ := by
  have hall := fun {j : ℕ} {b : AddressSpace} (hj : w.spaces j = some b) =>
    h.beside_taken htook hread hj
  constructor
  · exact fun k a hk => (hall hk).1
  · intro k a hk q hq
    exact h.fresh k a hk q ((hall hk).2.1 ▸ hq)
  · intro j k a b hne hj hk q hq hq'
    exact h.apart j k a b hne hj hk q ((hall hj).2.1 ▸ hq) ((hall hk).2.1 ▸ hq')
  · intro t ht
    obtain ⟨hmem, hold⟩ := h.kernel t ht
    exact ⟨(htook.outstanding t).mpr (.inr hmem), fun i hi => (hread t hmem i hi).trans (hold i hi)⟩
  · intro k a hk i hi hlo
    exact ((hall hk).2.2 i hi).trans (h.upper k a hk i hi hlo)

theorem Separate.created (h : Separate P tables clock held kept orig w)
    (hroot : tables.root ∈ kept)
    (hnew : Created P held clock tables a w.mem m' taken lost) :
    Separate P tables clock held kept orig (w.put k (some a) m') := by
  refine h.put (fun j b _ hj => h.beside_taken hnew.took hnew.frame hj) (fun t ht => ?_) fun b hb => ?_
  · have hmem := (h.kernel t ht).1
    exact ⟨(hnew.took.outstanding t).mpr (.inr hmem), hnew.frame t hmem⟩
  · obtain rfl := Option.some.inj hb
    refine ⟨hnew.ok, fun q hq => ?_, fun i hi hlo => ?_⟩
    · have hnot := hnew.took.fresh q (hnew.mem_taken hq)
      exact ⟨fun ht => hnot (h.kernel q ht).1, fun j c _ hj hc => hnot ((h.ok j c hj).owned q hc)⟩
    · exact (hnew.upper i hi hlo).trans ((h.kernel tables.root hroot).2 i hi)

theorem Separate.worked (h : Separate P tables clock held kept orig w) (hk : w.spaces k = some a)
    (hw : Worked P held clock a a' w.mem m' taken lost) :
    Separate P tables clock held kept orig (w.put k (some a') m') := by
  have hok := h.ok k a hk
  refine h.put (fun j b hne hj => h.others (.worked hk hw) hne hj) (fun t ht => ?_) fun b hb => ?_
  · exact hw.keeps hok (h.kernel t ht).1 fun hq => h.fresh k a hk t hq ht
  · obtain rfl := Option.some.inj hb
    rw [hw.root]
    refine ⟨hw.ok, fun q hq => ?_, fun i hi hlo => ?_⟩
    · obtain hq | hq := List.mem_append.mp (hw.cells.mem_iff.mp (List.mem_append_left lost hq))
      · have hnot := hw.took.fresh q hq
        exact ⟨fun ht => hnot (h.kernel q ht).1, fun j c _ hj hc => hnot ((h.ok j c hj).owned q hc)⟩
      · exact ⟨h.fresh k a hk q hq, fun j c hne hj => h.apart k j a c hne.symm hk hj q hq⟩
    · exact (hw.upper i hi hlo).trans (h.upper k a hk i hi hlo)

theorem Separate.freed (h : Separate P tables clock held kept orig w) (hk : w.spaces k = some a)
    (hf : Freed P held w.mem m' gone)
    (hperm : gone.Perm (spaceFrames P clock a.root w.mem)) :
    Separate P tables clock held kept orig (w.put k none m') := by
  refine h.put (fun j b hne hj => h.others (.freed hk hf hperm) hne hj) (fun t ht => ?_)
    fun b hb => nomatch hb
  exact hf.keeps (h.kernel t ht).1 fun hq => h.fresh k a hk t (hperm.mem_iff.mp hq) ht

theorem Separate.spaceStep (hP : P.Lawful held) (hclock : clock ∈ kept) (hframed : Framed clock)
    (hroot : tables.root ∈ kept) (h : Separate P tables clock held kept orig w) (op : SpaceOp) :
    SpaceStep P tables clock held w op.name (w.step P tables clock op) := by
  cases op with
  | new k =>
    rw [World.step]
    split
    · exact .idle
    · next hfree =>
      split
      · next m ha =>
        obtain ⟨htook, hread⟩ := new_spec hP (h.kernel clock hclock).1 (h.kernel _ hroot).1 ha
        exact .failed htook hread
      · next a m ha =>
        obtain ⟨hnew, -⟩ := new_spec hP (h.kernel clock hclock).1 (h.kernel _ hroot).1 ha
        exact .created hfree hnew
  | load k image =>
    rw [World.step]
    split
    · exact .idle
    · next a hk =>
      obtain ⟨taken, lost, hw, -⟩ := load_spec hP (h.ok k a hk) rfl
      exact .worked hk hw
  | mapStack k =>
    rw [World.step]
    split
    · exact .idle
    · next a hk =>
      obtain ⟨taken, lost, hw, -⟩ := mapStack_spec hP (h.ok k a hk) rfl
      exact .worked hk hw
  | seedId k id =>
    rw [World.step]
    split
    · exact .idle
    · next a hk =>
      obtain ⟨taken, lost, hw, -⟩ := seedId_spec hP (h.ok k a hk) rfl
      exact .worked hk hw
  | mapClock k =>
    rw [World.step]
    split
    · exact .idle
    · next a hk =>
      obtain ⟨taken, lost, hw, -⟩ := mapClock_spec hP hframed (h.ok k a hk) rfl
      exact .worked hk hw
  | destroy k =>
    rw [World.step]
    split
    · exact .idle
    · next a hk =>
      obtain ⟨freed, -, hf, hperm⟩ := destroy_spec hP (h.ok k a hk)
      exact .freed hk hf hperm

theorem Separate.step (hroot : tables.root ∈ kept)
    (h : Separate P tables clock held kept orig w) {w' : World σ}
    (hs : SpaceStep P tables clock held w k w') : Separate P tables clock held kept orig w' := by
  cases hs with
  | idle => exact h
  | failed htook hread => exact h.took htook hread
  | created hfree hnew => exact h.created hroot hnew
  | worked hk hw => exact h.worked hk hw
  | freed hk hf hperm => exact h.freed hk hf hperm

theorem reached_separate (hP : P.Lawful held) (hclock : clock ∈ held m₀.pool)
    (hframed : Framed clock) (hroot : tables.root ∈ held m₀.pool)
    (h : World.Reached P tables clock m₀ w) : Separate P tables clock held (held m₀.pool) (m₀.read P) w := by
  refine Run.invariant (Separate P tables clock held (held m₀.pool) (m₀.read P)) h ?_ ?_
  · exact ⟨nofun, nofun, nofun, fun t ht => ⟨ht, fun _ _ => rfl⟩, nofun⟩
  · rintro w op w' hw - rfl
    exact hw.step hroot (hw.spaceStep hP hclock hframed hroot op)

/-! ### What a program sees -/

/-- A walk grants what its first entry grants, and no more. -/
theorem translateFrom_user {F : FrameSource σ} {s : σ} {v t : UInt64} {l : ℕ} {eff : Rights}
    {tr : Translation} (h : Mapper.translateFrom F v s l t eff = some tr) (hu : tr.rights.user) :
    eff.user ∧ ∃ n, l = n + 1 ∧ reachableByUser (F.read s t (index v n)) := by
  induction l generalizing t eff with
  | zero => cases h
  | succ l ih =>
    rw [Mapper.translateFrom] at h
    cases hp : present (F.read s t (index v l)) with
    | false => simp [hp] at h
    | true =>
      have hboth : (eff.intersect (Rights.fromBits (F.read s t (index v l)))).user = true := by
        simp only [hp, Bool.not_true, Bool.false_eq_true, if_false] at h
        split at h
        · rw [← Option.some.inj h] at hu
          exact hu
        · exact (ih h).1
      obtain ⟨heff, hentry⟩ := Bool.and_eq_true_iff.mp hboth
      exact ⟨heff, l, rfl, Bool.and_eq_true_iff.mpr ⟨hp, hentry⟩⟩

theorem userReachableKernelSlots_congr {m m' : Mem σ} {t u : UInt64}
    (h : ∀ i < 512, 256 ≤ i → m'.read P t i = m.read P u i) :
    userReachableKernelSlots P t m' = userReachableKernelSlots P u m := by
  refine forRange_invariant (P := fun k n => n = forRange k (fun count i =>
    if reachableByUser (m.read P u (kernelPml4First + i)) then count + 1 else count) 0) rfl
    fun i hi n hn => ?_
  rw [forRange_succ, hn, h (kernelPml4First + i) (by rw [kernelPml4First]; omega)
    (by rw [kernelPml4First]; omega)]

theorem not_reachable_of_zero {m : Mem σ} {t : UInt64} (h : userReachableKernelSlots P t m = 0)
    {i : ℕ} (hi : i < 512) (hlo : 256 ≤ i) : reachableByUser (m.read P t i) = false := by
  have hcount := forRange_invariant (n := 256) (s := 0) (f := fun count k =>
      if reachableByUser (m.read P t (kernelPml4First + k)) then count + 1 else count)
    (P := fun k n => n = 0 → ∀ j < k, reachableByUser (m.read P t (256 + j)) = false)
    (fun _ j hj => absurd hj (Nat.not_lt_zero j)) (fun k hk n hn hzero j hj => by
      split at hzero
      · omega
      · next hk' =>
        obtain hlt | rfl : j < k ∨ j = k := by omega
        · exact hn hzero j hlt
        · exact Bool.not_eq_true _ ▸ hk')
  have hthis := hcount h (i - 256) (by omega)
  rwa [show 256 + (i - 256) = i by omega] at hthis

theorem mem_lowerFrames (clock : UInt64) {m : Mem σ} {root q : UInt64} (h : q ∈ lowerFrames P root m) :
    q = clock ∨ q ∈ spaceFrames P clock root m := by
  refine TableTree.mem_cells_imp (C := fun q => q = clock) (fun e q hq => ?_) h
  split at hq
  · next hp =>
    obtain rfl := List.mem_singleton.mp hq
    by_cases hc : e &&& pteAddrMask = clock
    · exact .inl hc
    · exact .inr (by simp [ownLeaf, hp, hc])
  · exact absurd hq List.not_mem_nil

/-- The spaces of every state reached are isolated. -/
theorem spaces_isolated (hP : P.Lawful held) (hclock : clock ∈ held m₀.pool)
    (hframed : Framed clock) (hroot : tables.root ∈ held m₀.pool)
    (h : World.Reached P tables clock m₀ w) : Isolated P tables clock m₀ w := by
  have hsep := reached_separate hP hclock hframed hroot h
  have hslots : ∀ k a, w.spaces k = some a →
      userReachableKernelSlots P a.root w.mem = userReachableKernelSlots P tables.root m₀ :=
    fun k a hk => userReachableKernelSlots_congr (hsep.upper k a hk)
  constructor
  · intro j k a b hne hj hk q hq hq'
    obtain rfl | hq := mem_lowerFrames clock hq
    · rfl
    · exact (mem_lowerFrames clock hq').resolve_right (hsep.apart j k a b hne hj hk q hq)
  · intro k a hk v t hv ht hpage
    obtain ⟨e, -, hp, hlast, hrights, hphys⟩ := (hsep.ok k a hk).translate hv ht
    rw [hrights]
    refine ((hlast hp).2.2.2 ?_).1
    have haddr := toNat_addr e
    have hclockAddr := (framed_iff.mp hframed).1
    apply UInt64.toNat_inj.mp
    omega
  · exact hsep.upper
  · exact hslots
  · intro k a hk v t hor ht hu
    by_cases hv : index v 3 < 256
    · obtain ⟨e, -, hp, hlast, hrights, -⟩ := (hsep.ok k a hk).translate hv ht
      rw [hrights]
      exact (hlast hp).2.2.1
    · -- no walk through the kernel's half grants the user right
      obtain ⟨-, n, hn, hreach⟩ := translateFrom_user ht hu
      obtain rfl : n = 3 := by omega
      have hzero := (hslots k a hk).trans (hor.resolve_left hv)
      have hnot := not_reachable_of_zero hzero (index_lt v 3) (by omega)
      exact absurd hreach (Bool.not_eq_true _ ▸ hnot)

end

def smallFree : List UInt64 := (List.range 40).map fun n => 0x200000 + UInt64.ofNat (4096 * n)

theorem smallFree_framed : smallFree.all fun p => decide (Framed p) := by decide +kernel

/-- Forty free frames; the kernel's top table and its tick counter are elsewhere. -/
def smallMemory : Mem FrameStack where
  pool :=
    { free := smallFree
      nodup := by decide +kernel
      framed := fun p hp => of_decide_eq_true (List.all_eq_true.mp smallFree_framed p hp)
      words := fun _ _ => 0 }
  inUse := 0
  events := []

def smallTables : Tables := ⟨0x100000, false⟩

def smallClock : UInt64 := 0x101000

theorem smallMemory_held : smallTables.root ∈ FrameStack.held smallMemory.pool ∧
    smallClock ∈ FrameStack.held smallMemory.pool ∧ Framed smallClock :=
  ⟨⟨by decide, by decide⟩, ⟨by decide, by decide⟩, by decide⟩

theorem World.reached_foldl {σ : Type} {P : FramePool σ} {tables : Tables} {clock : UInt64}
    {m : Mem σ} (ops : List SpaceOp) : World.Reached P tables clock m
      (ops.foldl (World.step P tables clock) ⟨m, fun _ => none⟩) := by
  induction ops using List.reverseRecOn with
  | nil => exact .refl
  | append_singleton ops op ih =>
    rw [List.foldl_append]
    exact ih.tail trivial rfl

/-- An ELF header with this entry point, for `phnum` program headers right behind it. -/
def elfHeader (entry : List UInt8) (phnum : UInt8) : List UInt8 :=
  [0x7F, 0x45, 0x4C, 0x46, 2, 1, 1, 0, 0, 0, 0, 0, 0, 0, 0, 0, 2, 0, 62, 0, 1, 0, 0, 0] ++ entry ++
  [64, 0, 0, 0, 0, 0, 0, 0, 0, 0, 0, 0, 0, 0, 0, 0, 0, 0, 0, 0, 64, 0, 56, 0, phnum, 0, 64, 0,
    0, 0, 0, 0]

/-- One read-execute page at 0x400000, with one byte of the file. -/
def onePageImage : Slice where
  bytes := elfHeader [0, 0, 0x40, 0, 0, 0, 0, 0] 1 ++
    [1, 0, 0, 0, 5, 0, 0, 0, 0, 0, 0, 0, 0, 0, 0, 0, 0, 0, 0x40, 0, 0, 0, 0, 0,
      0, 0, 0, 0, 0, 0, 0, 0, 1, 0, 0, 0, 0, 0, 0, 0, 1, 0, 0, 0, 0, 0, 0, 0,
      0, 0x10, 0, 0, 0, 0, 0, 0]
  length_le := by decide

/-- Two spaces side by side: the image in the first, and in both a stack and the clock. -/
def twoSpaces (image : Elf64.Elf) : World FrameStack :=
  [.new 0, .new 1, .load 0 image, .mapStack 0, .mapStack 1, .mapClock 0, .mapClock 1].foldl
    (World.step FrameStack.pool smallTables smallClock) ⟨smallMemory, fun _ => none⟩

/-- The spaces of names 0 and 1, where both live and the first has a page at this address. -/
def World.pair (v : UInt64) (w : World FrameStack) : Option (AddressSpace × AddressSpace) :=
  match w.spaces 0, w.spaces 1 with
  | some a, some b =>
    (a.mapper.translate (kernelFrames FrameStack.pool) v w.mem).map fun _ => (a, b)
  | _, _ => none

theorem spaces_isolated_two : ∃ image a b t, Elf64.Elf.parse onePageImage = .ok image ∧
    (twoSpaces image).spaces 0 = some a ∧ (twoSpaces image).spaces 1 = some b ∧
    a.mapper.translate (kernelFrames FrameStack.pool) 0x400000 (twoSpaces image).mem = some t ∧
    Isolated FrameStack.pool smallTables smallClock smallMemory (twoSpaces image) := by
  have hlive : ((Elf64.Elf.parse onePageImage).toOption.bind fun image =>
      (twoSpaces image).pair 0x400000).isSome := by decide +kernel
  obtain ⟨⟨a, b⟩, hlive⟩ := Option.isSome_iff_exists.mp hlive
  obtain ⟨image, himage, hpair⟩ := Option.bind_eq_some_iff.mp hlive
  have hisolated := spaces_isolated FrameStack.lawful smallMemory_held.2.1 smallMemory_held.2.2
    smallMemory_held.1 (World.reached_foldl _ : World.Reached _ _ _ _ (twoSpaces image))
  unfold World.pair at hpair
  split at hpair
  · next a' b' ha hb =>
    obtain ⟨t, ht, heq⟩ := Option.map_eq_some_iff.mp hpair
    obtain ⟨rfl, rfl⟩ := Prod.ext_iff.mp heq
    have hparse : Elf64.Elf.parse onePageImage = .ok image := by
      rcases h : Elf64.Elf.parse onePageImage with err | elf
      · rw [h] at himage
        cases himage
      · rw [h] at himage
        exact congrArg Except.ok (Option.some.inj himage)
    exact ⟨image, _, _, t, hparse, ha, hb, ht, hisolated⟩
  · cases hpair

end StarOs.Kernel
