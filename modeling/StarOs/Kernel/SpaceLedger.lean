import StarOs.Kernel.BuildSpace

/-! The ledger of the spaces a kernel builds and destroys: a build takes frames, and the space's
own teardown gives back those and no others, whatever was built and destroyed in between. -/

namespace StarOs.Kernel

open Library Library.Loop Paging

def FrameEvent.takenFrame : FrameEvent → Option UInt64
  | .taken frame => some frame
  | .freed _ => none

def FrameEvent.freedFrame : FrameEvent → Option UInt64
  | .taken _ => none
  | .freed frame => some frame

/-- A space that was built, and the frames `alloc_frame` gave while it was. -/
structure Site where
  space : AddressSpace
  bill : List UInt64

/-- The spaces built so far, `none` once destroyed, and the frames failed builds took. -/
structure Ledger (σ : Type) where
  mem : Mem σ
  sites : List (Option Site)
  abandoned : List UInt64

inductive LedgerOp where
  | build (image : Slice) (id : UInt8)
  | destroy (k : ℕ)

/-- The image of a build has its pages to itself, as the linker script arranges. -/
def LedgerOp.Disjoint : LedgerOp → Prop
  | .build image id => ∀ elf, Elf64.Elf.parse image = .ok elf → PageDisjoint elf id
  | .destroy _ => True

section

variable {σ : Type}

/-- What `alloc_frame` and `free_frame` did between two states, the latest first. -/
def eventsSince (before after : Mem σ) : List FrameEvent :=
  after.events.take (after.events.length - before.events.length)

def takenSince (before after : Mem σ) : List UInt64 :=
  (eventsSince before after).filterMap FrameEvent.takenFrame

def freedSince (before after : Mem σ) : List UInt64 :=
  (eventsSince before after).filterMap FrameEvent.freedFrame

def Site.owed : Option Site → ℕ
  | some site => site.bill.length
  | none => 0

variable (P : FramePool σ) (tables : Tables) (clock : UInt64)

namespace Ledger

def step (w : Ledger σ) : LedgerOp → Ledger σ
  | .build image id =>
    match buildSpace P tables clock image id w.mem with
    | (.ok a, m) => ⟨m, w.sites ++ [some ⟨a, takenSince w.mem m⟩], w.abandoned⟩
    | (.error _, m) => ⟨m, w.sites, takenSince w.mem m ++ w.abandoned⟩
  | .destroy k =>
    match w.sites[k]? with
    | some (some site) => ⟨(site.space.destroy P w.mem).2, w.sites.set k none, w.abandoned⟩
    | _ => w

/-- The states reached from a memory without spaces by builds of disjoint images and teardowns. -/
def Reached (m₀ : Mem σ) (w : Ledger σ) : Prop :=
  Run (fun w op w' => step P tables clock w op = w') LedgerOp.Disjoint ⟨m₀, [], []⟩ w

/-- The frames the live spaces have to give back. -/
def outstanding (w : Ledger σ) : ℕ := (w.sites.map Site.owed).sum

def world (w : Ledger σ) : World σ :=
  ⟨w.mem, fun k => w.sites[k]?.join.map Site.space⟩

end Ledger

/-- The tables of the kernel's half, as reached from a top table. -/
def kernelHalf (root : UInt64) (m : Mem σ) : List UInt64 :=
  (List.range 256).flatMap fun i => (tree true).tables (m.read P) 3 (m.read P root (256 + i))

/-- Destroying the space gives back what its bill says, each frame once, and nothing that is the
kernel's: no table of its half, and no frame that was `kept` before there were spaces. -/
structure Repaid (kept : Set UInt64) (m : Mem σ) (a : AddressSpace) (bill : List UInt64) : Prop where
  once : (freedSince m (a.destroy P m).2).Perm bill
  nodup : bill.Nodup
  clock : clock ∉ bill
  kernel : ∀ q ∈ kernelHalf P a.root m, q ∉ bill
  beside : ∀ q ∈ kept, q ∉ bill
  count : (a.destroy P m).1 = bill.length
  inUse : framesInUse (a.destroy P m).2 = framesInUse m - UInt64.ofNat bill.length

/-- The invariant: the bills are the frames of the spaces, and the count is what they owe. -/
structure InOrder (held : σ → Set UInt64) (m₀ : Mem σ) (w : Ledger σ) : Prop where
  separate : Separate P tables clock held (held m₀.pool) (m₀.read P) w.world
  bills : ∀ (k : ℕ) (site : Site), w.sites[k]? = some (some site) →
    (spaceFrames P clock site.space.root w.mem).Perm site.bill
  count : w.mem.inUse = m₀.inUse + UInt64.ofNat (w.outstanding + w.abandoned.length)

end

section

variable {σ : Type} {P : FramePool σ} {held : σ → Set UInt64} {tables : Tables} {clock : UInt64}
  {m m' m₀ : Mem σ} {w : Ledger σ} {k : ℕ} {a : AddressSpace} {taken lost gone bill : List UInt64}
  {site : Site} {image : Slice} {id : UInt8}

theorem Took.takenSince_eq (h : Took held m m' taken) : takenSince m m' = taken := by
  have hlen : m'.events.length - m.events.length = (taken.map FrameEvent.taken).length := by
    rw [h.events, List.length_append, Nat.add_sub_cancel]
  rw [takenSince, eventsSince, hlen, h.events, List.take_left', List.filterMap_map]
  · exact List.filterMap_some
  · rfl

theorem Freed.freedSince_eq (h : Freed P held m m' gone) : freedSince m m' = gone := by
  have hlen : m'.events.length - m.events.length = (gone.map FrameEvent.freed).length := by
    rw [h.events, List.length_append, Nat.add_sub_cancel]
  rw [freedSince, eventsSince, hlen, h.events, List.take_left', List.filterMap_map]
  · exact List.filterMap_some
  · rfl

theorem Ledger.world_site (hk : w.sites[k]? = some (some site)) :
    w.world.spaces k = some site.space := by
  simp [Ledger.world, hk]

theorem Ledger.world_build : Ledger.world ⟨m', w.sites ++ [some site], gone⟩ =
    w.world.put w.sites.length (some site.space) m' := by
  have hspaces : (Ledger.world ⟨m', w.sites ++ [some site], gone⟩).spaces =
      (w.world.put w.sites.length (some site.space) m').spaces := by
    funext k
    rw [World.put_spaces]
    simp only [Ledger.world, List.getElem?_append]
    split
    · next hlt => rw [if_neg (by omega)]
    · next hge =>
      by_cases heq : k = w.sites.length
      · simp [heq]
      · rw [if_neg heq, List.getElem?_eq_none (by rw [List.length_singleton]; omega),
          List.getElem?_eq_none (by omega)]
  exact congrArg (World.mk m') hspaces

theorem Ledger.world_destroy (hk : w.sites[k]? = some (some site)) :
    Ledger.world ⟨m', w.sites.set k none, gone⟩ = w.world.put k none m' := by
  have hspaces : (Ledger.world ⟨m', w.sites.set k none, gone⟩).spaces =
      (w.world.put k none m').spaces := by
    funext j
    rw [World.put_spaces]
    simp only [Ledger.world, List.getElem?_set]
    by_cases hjk : j = k
    · subst hjk
      simp [(List.getElem?_eq_some_iff.mp hk).1]
    · rw [if_neg (Ne.symm hjk), if_neg hjk]
  exact congrArg (World.mk m') hspaces

theorem sum_owed_set {sites : List (Option Site)} (hk : sites[k]? = some (some site)) :
    ((sites.set k none).map Site.owed).sum + site.bill.length = (sites.map Site.owed).sum := by
  induction sites generalizing k with
  | nil => cases hk
  | cons o sites ih =>
    cases k with
    | zero =>
      obtain rfl : o = some site := Option.some.inj hk
      simp [Site.owed, Nat.add_comm]
    | succ k =>
      have hrest := ih (k := k) (by simpa using hk)
      simp only [List.set_cons_succ, List.map_cons, List.sum_cons]
      omega

/-- The kernel's half is what it was, and none of it is a space's own. -/
theorem Separate.kernelHalf_apart {w : World σ} (h : Separate P tables clock held (held m₀.pool) (m₀.read P) w)
    (hkernel : ∀ q ∈ kernelHalf P tables.root m₀, q ∈ held m₀.pool) (hk : w.spaces k = some a)
    {q : UInt64} (hq : q ∈ kernelHalf P a.root w.mem) :
    q ∉ spaceFrames P clock a.root w.mem := by
  intro hown
  refine h.fresh k a hk q hown (hkernel q ?_)
  obtain ⟨i, hi, hq⟩ := List.mem_flatMap.mp hq
  have hlt := List.mem_range.mp hi
  rw [h.upper k a hk (256 + i) (by omega) (by omega)] at hq
  refine List.mem_flatMap.mpr ⟨i, hi, ?_⟩
  have hagree : (tree true).AgreeOn (m₀.read P) (w.mem.read P)
      ((tree true).tables (m₀.read P) 3 (m₀.read P tables.root (256 + i))) := by
    intro t ht j hj
    exact (h.kernel t (hkernel t (List.mem_flatMap.mpr ⟨i, hi, ht⟩))).2 j hj
  have hsame : (tree true).tables (w.mem.read P) 3 (m₀.read P tables.root (256 + i)) =
      (tree true).tables (m₀.read P) 3 (m₀.read P tables.root (256 + i)) :=
    TableTree.cells_congr hagree
  exact hsame ▸ hq

theorem Separate.repaid {w : World σ} (hP : P.Lawful held)
    (h : Separate P tables clock held (held m₀.pool) (m₀.read P) w)
    (hkernel : ∀ q ∈ kernelHalf P tables.root m₀, q ∈ held m₀.pool) (hk : w.spaces k = some a)
    (hbill : (spaceFrames P clock a.root w.mem).Perm bill) : Repaid P clock (held m₀.pool) w.mem a bill := by
  have hok := h.ok k a hk
  obtain ⟨freed, hcount, hf, hperm⟩ := destroy_spec hP hok
  have hfreed : freed.Perm bill := hperm.trans hbill
  constructor
  · rw [hf.freedSince_eq]
    exact hfreed
  · exact hbill.nodup_iff.mp hok.nodup
  · exact fun hq => hok.clock_apart (hbill.mem_iff.mpr hq)
  · exact fun q hq hin => h.kernelHalf_apart hkernel hk hq (hbill.mem_iff.mpr hin)
  · exact fun q hq hin => h.fresh k a hk q (hbill.mem_iff.mpr hin) hq
  · rw [hcount, hfreed.length_eq]
  · rw [framesInUse, hf.inUse, hfreed.length_eq]
    rfl

theorem InOrder.still_held (h : InOrder P tables clock held m₀ w) {t : UInt64}
    (ht : t ∈ held m₀.pool) : t ∈ held w.mem.pool := (h.separate.kernel t ht).1

theorem InOrder.built (h : InOrder P tables clock held m₀ w) (hroot : tables.root ∈ held m₀.pool)
    (hnew : Created P held clock tables a w.mem m' taken []) :
    InOrder P tables clock held m₀ ⟨m', w.sites ++ [some ⟨a, taken⟩], w.abandoned⟩ := by
  constructor
  · rw [Ledger.world_build]
    exact h.separate.created hroot hnew
  · intro k site hk
    rw [List.getElem?_append] at hk
    split at hk
    · have hsame := h.separate.beside_taken hnew.took hnew.frame (Ledger.world_site hk)
      rw [hsame.2.1]
      exact h.bills k site hk
    · obtain rfl : site = ⟨a, taken⟩ := by
        have hmem := List.mem_of_getElem? hk
        exact Option.some.inj (List.mem_singleton.mp hmem)
      have hcells := hnew.cells
      rwa [List.append_nil] at hcells
  · rw [hnew.took.inUse, h.count, UInt64.add_assoc, ← UInt64.ofNat_add]
    simp only [Ledger.outstanding, List.map_append, List.sum_append, List.map_singleton,
      List.sum_singleton, Site.owed]
    congr 2
    omega

theorem InOrder.failed (h : InOrder P tables clock held m₀ w) (htook : Took held w.mem m' taken)
    (hread : ∀ t ∈ held w.mem.pool, ∀ i < 512, m'.read P t i = w.mem.read P t i) :
    InOrder P tables clock held m₀ ⟨m', w.sites, taken ++ w.abandoned⟩ := by
  constructor
  · exact h.separate.took htook hread
  · intro k site hk
    have hsame := h.separate.beside_taken htook hread (Ledger.world_site hk)
    rw [hsame.2.1]
    exact h.bills k site hk
  · rw [htook.inUse, h.count, UInt64.add_assoc, ← UInt64.ofNat_add, List.length_append]
    simp only [Ledger.outstanding]
    congr 2
    omega

theorem InOrder.destroyed (h : InOrder P tables clock held m₀ w) (hk : w.sites[k]? = some (some site))
    (hf : Freed P held w.mem m' gone)
    (hperm : gone.Perm (spaceFrames P clock site.space.root w.mem)) :
    InOrder P tables clock held m₀ ⟨m', w.sites.set k none, w.abandoned⟩ := by
  have hworld := Ledger.world_site hk
  constructor
  · rw [Ledger.world_destroy hk]
    exact h.separate.freed hworld hf hperm
  · intro j other hj
    rw [List.getElem?_set] at hj
    split at hj
    · split at hj <;> cases hj
    · next hne =>
      have hsame := h.separate.others (.freed hworld hf hperm) (Ne.symm hne) (Ledger.world_site hj)
      have hframes : spaceFrames P clock other.space.root m' =
        spaceFrames P clock other.space.root w.mem := hsame.2.1
      rw [hframes]
      exact h.bills j other hj
  · have hlen : gone.length = site.bill.length := (hperm.trans (h.bills k site hk)).length_eq
    have hsum := sum_owed_set hk
    rw [hf.inUse, h.count, hlen, Ledger.outstanding, Ledger.outstanding, ← hsum,
      Nat.add_right_comm, UInt64.ofNat_add _ site.bill.length, ← UInt64.add_assoc,
      UInt64.add_sub_cancel]

theorem InOrder.step (hP : P.Lawful held) (hclock : clock ∈ held m₀.pool) (hframed : Framed clock)
    (hroot : tables.root ∈ held m₀.pool) (h : InOrder P tables clock held m₀ w) {op : LedgerOp}
    (hop : op.Disjoint) : InOrder P tables clock held m₀ (w.step P tables clock op) := by
  cases op with
  | build image id =>
    rw [Ledger.step]
    split
    · next a m hbuild =>
      obtain ⟨taken, hend⟩ := buildSpace_spec hP (h.still_held hclock) hframed
        (h.still_held hroot) hbuild
      obtain ⟨elf, lost, hparse, hnew, hlost⟩ := hend.ok a rfl
      obtain rfl := hlost (hop elf hparse)
      rw [hend.took.takenSince_eq]
      exact h.built hroot hnew
    · next e m hbuild =>
      obtain ⟨taken, hend⟩ := buildSpace_spec hP (h.still_held hclock) hframed
        (h.still_held hroot) hbuild
      rw [hend.took.takenSince_eq]
      exact h.failed hend.took hend.frame
  | destroy k =>
    rw [Ledger.step]
    split
    · next site hk =>
      obtain ⟨freed, -, hf, hperm⟩ := destroy_spec hP (h.separate.ok k _ (Ledger.world_site hk))
      exact h.destroyed hk hf hperm
    · exact h

theorem reached_inOrder (hP : P.Lawful held) (hclock : clock ∈ held m₀.pool)
    (hframed : Framed clock) (hroot : tables.root ∈ held m₀.pool)
    (h : Ledger.Reached P tables clock m₀ w) : InOrder P tables clock held m₀ w := by
  refine Run.invariant (InOrder P tables clock held m₀) h ?_ ?_
  · refine ⟨⟨?_, ?_, ?_, fun t ht => ⟨ht, fun _ _ => rfl⟩, ?_⟩, ?_, (UInt64.add_zero _).symm⟩
    all_goals intro k
    · exact nofun
    · exact nofun
    · exact fun _ _ _ _ h => nomatch h
    · exact nofun
    · exact nofun
  · rintro w op w' hw hop rfl
    exact hw.step hP hclock hframed hroot hop

/-- Every space gives back what its build took: those that live, and the next one built. -/
theorem ledger_round_trip (hP : P.Lawful held) (hclock : clock ∈ held m₀.pool)
    (hframed : Framed clock) (hroot : tables.root ∈ held m₀.pool)
    (hkernel : ∀ q ∈ kernelHalf P tables.root m₀, q ∈ held m₀.pool)
    (h : Ledger.Reached P tables clock m₀ w) :
    (∀ (k : ℕ) (site : Site), w.sites[k]? = some (some site) →
      Repaid P clock (held m₀.pool) w.mem site.space site.bill) ∧
    (∀ image id a m, (LedgerOp.build image id).Disjoint →
      buildSpace P tables clock image id w.mem = (.ok a, m) →
      Repaid P clock (held m₀.pool) m a (takenSince w.mem m) ∧
        framesInUse (a.destroy P m).2 = framesInUse w.mem) ∧
    framesInUse w.mem =
      framesInUse m₀ + UInt64.ofNat (w.outstanding + w.abandoned.length) := by
  have hw := reached_inOrder hP hclock hframed hroot h
  refine ⟨fun k site hk => ?_, fun image id a m hdisjoint hbuild => ?_, hw.count⟩
  · exact hw.separate.repaid hP hkernel (Ledger.world_site hk) (hw.bills k site hk)
  · obtain ⟨taken, hend⟩ := buildSpace_spec hP (hw.still_held hclock) hframed
      (hw.still_held hroot) hbuild
    obtain ⟨elf, lost, hparse, hnew, hlost⟩ := hend.ok a rfl
    obtain rfl := hlost (hdisjoint elf hparse)
    have hbuilt := hw.built hroot hnew
    have hsite : (w.sites ++ [some ⟨a, taken⟩])[w.sites.length]? = some (some ⟨a, taken⟩) := by simp
    have hrepaid := hbuilt.separate.repaid hP hkernel (Ledger.world_site hsite)
      (hbuilt.bills _ _ hsite)
    rw [hend.took.takenSince_eq]
    refine ⟨hrepaid, hrepaid.inUse.trans ?_⟩
    rw [framesInUse, framesInUse]
    change m.inUse - UInt64.ofNat taken.length = w.mem.inUse
    rw [hend.took.inUse, UInt64.add_sub_cancel]

end

theorem Ledger.reached_foldl {σ : Type} {P : FramePool σ} {tables : Tables} {clock : UInt64}
    {m : Mem σ} (ops : List LedgerOp) (hops : ∀ op ∈ ops, op.Disjoint) :
    Ledger.Reached P tables clock m (ops.foldl (Ledger.step P tables clock) ⟨m, [], []⟩) := by
  induction ops using List.reverseRecOn with
  | nil => exact .refl
  | append_singleton ops op ih =>
    rw [List.foldl_append]
    exact (ih fun o ho => hops o (List.mem_append_left _ ho)).tail
      (hops op (List.mem_append_right _ List.mem_cons_self)) rfl

theorem onePageImage_disjoint (id : UInt8) : (LedgerOp.build onePageImage id).Disjoint := by
  intro elf hparse
  have hall : (imagePages elf.segments ++ [stackPage] ++ [idPage id]).map (·.number) =
      [0x400, 0x7FFFF, 0x400000] := by
    rw [List.map_append, List.map_append, onePageImage_numbers hparse]
    rfl
  rw [PageDisjoint, hall]
  decide

/-- A space of one page, another beside it, and the first torn down. -/
def twoBuilds : List LedgerOp := [.build onePageImage 1, .build onePageImage 2, .destroy 0]

/-- The ledger of the small memory once these are done. -/
def smallLedger (ops : List LedgerOp) : Ledger FrameStack :=
  ops.foldl (Ledger.step FrameStack.pool smallTables smallClock) ⟨smallMemory, [], []⟩

theorem twoBuilds_disjoint : ∀ op ∈ twoBuilds, op.Disjoint := by
  intro op hop
  simp only [twoBuilds, List.mem_cons, List.not_mem_nil, or_false] at hop
  obtain rfl | rfl | rfl := hop
  · exact onePageImage_disjoint 1
  · exact onePageImage_disjoint 2
  · trivial

theorem smallMemory_kernelHalf : ∀ q ∈ kernelHalf FrameStack.pool smallTables.root smallMemory,
    q ∈ FrameStack.held smallMemory.pool := by
  intro q hq
  obtain ⟨i, -, hq⟩ := List.mem_flatMap.mp hq
  have hzero : smallMemory.read FrameStack.pool smallTables.root (256 + i) = 0 := rfl
  rw [hzero, TableTree.tables_of_none child_zero] at hq
  exact absurd hq List.not_mem_nil

/-- Both builds succeed: the second beside the first, and it outlives it. -/
theorem ledger_round_trip_two :
    (∃ site, (smallLedger twoBuilds).sites[1]? = some (some site) ∧
      Repaid FrameStack.pool smallClock (FrameStack.held smallMemory.pool)
        (smallLedger twoBuilds).mem site.space site.bill) ∧
    (∃ a m, buildSpace FrameStack.pool smallTables smallClock onePageImage 2
        (smallLedger (twoBuilds.take 1)).mem = (.ok a, m) ∧
      Repaid FrameStack.pool smallClock (FrameStack.held smallMemory.pool) m a
        (takenSince (smallLedger (twoBuilds.take 1)).mem m) ∧
      framesInUse (a.destroy FrameStack.pool m).2 =
        framesInUse (smallLedger (twoBuilds.take 1)).mem) ∧
    framesInUse (smallLedger twoBuilds).mem = 11 := by
  have hround := fun ops (hops : ∀ op ∈ ops, op.Disjoint) =>
    ledger_round_trip FrameStack.lawful smallMemory_held.2.1 smallMemory_held.2.2
      smallMemory_held.1 smallMemory_kernelHalf
      (show Ledger.Reached _ _ _ _ (smallLedger ops) from Ledger.reached_foldl ops hops)
  refine ⟨?_, ?_, ?_⟩
  · have hlives : (((smallLedger twoBuilds).sites[1]?).getD none).isSome := by decide +kernel
    obtain ⟨site, hsite⟩ := Option.isSome_iff_exists.mp hlives
    have hat : (smallLedger twoBuilds).sites[1]? = some (some site) := by
      rcases h : (smallLedger twoBuilds).sites[1]? with _ | s
      · rw [h] at hsite
        cases hsite
      · rw [h] at hsite
        exact congrArg some hsite
    exact ⟨site, hat, (hround twoBuilds twoBuilds_disjoint).1 1 site hat⟩
  · have hbuilt : (buildSpace FrameStack.pool smallTables smallClock onePageImage 2
        (smallLedger (twoBuilds.take 1)).mem).1.isOk := by decide +kernel
    rcases h : buildSpace FrameStack.pool smallTables smallClock onePageImage 2
      (smallLedger (twoBuilds.take 1)).mem with ⟨err | a, m⟩
    · rw [h] at hbuilt
      cases hbuilt
    · exact ⟨a, m, rfl, (hround _ fun op hop => twoBuilds_disjoint op (List.mem_of_mem_take hop)).2.1
        onePageImage 2 a m (onePageImage_disjoint 2) h⟩
  · have howed : (smallLedger twoBuilds).outstanding + (smallLedger twoBuilds).abandoned.length =
        11 := by decide +kernel
    have hcount := (hround twoBuilds twoBuilds_disjoint).2.2
    rw [howed] at hcount
    exact hcount

end StarOs.Kernel
