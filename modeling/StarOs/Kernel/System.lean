import StarOs.Kernel.Departure
import StarOs.Kernel.Isolation
import StarOs.Kernel.Reaping

/-! The core and the frames together: a task owns the address space it was spawned in, and the
successor of a dead one tears that space down. Killing a task concerns nobody else. -/

namespace StarOs.Kernel

open Library Library.Loop Paging

/-- The core, the memory with its spaces, and which space the task in a slot owns. -/
structure System (σ : Type) where
  core : Machine
  world : World σ
  owner : ℕ → Option ℕ

/-- The root of the space task `i` holds, and the frames its teardown returns. -/
def Machine.spaceAt (i : ℕ) (k : Machine) : Option (UInt64 × UInt64) :=
  k.tasks[i]?.bind fun x => x.seat.space

/-- Neither the continuation just loaded runs, nor a task is given a space. -/
def Machine.Act.Plain : Machine.Act → Prop
  | .resume | .spawn _ (some _) _ => False
  | _ => True

section

variable {σ : Type} (P : FramePool σ) (tables : Tables) (clock : UInt64) (held : σ → Set UInt64)

/-- A program writes to its pages: no table changes, and no frame comes or goes. -/
structure World.Rewritten (w w' : World σ) : Prop where
  spaces : w'.spaces = w.spaces
  outstanding : held w'.mem.pool = held w.mem.pool
  inUse : w'.mem.inUse = w.mem.inUse
  events : w'.mem.events = w.mem.events
  frame : ∀ t ∈ held w.mem.pool, (∀ k a, w.spaces k = some a →
      t ∈ spaceFrames P clock a.root w.mem → t ∈ spaceTables P a.root w.mem) →
    ∀ i < 512, w'.mem.read P t i = w.mem.read P t i

namespace System

/-- The dead task that `post_switch` settles, and the space it owns. -/
def released (s : System σ) : Option (ℕ × ℕ) :=
  match s.core.prev with
  | none => none
  | some i =>
    match s.core.tasks[i]? with
    | none => none
    | some x => if x.state = .dead then (s.owner i).map fun j => (i, j) else none

/-- `space.destroy()` of `post_switch`, of the space the core let go of on its way to `k`. -/
def reclaim (k : Machine) (s : System σ) : System σ :=
  match s.released with
  | none => { s with core := k }
  | some (i, j) => ⟨k, s.world.step P tables clock (.destroy j), Function.update s.owner i none⟩

/-- `post_switch`, of the core and the memory. -/
def postSwitch (s : System σ) : Except Panic (System σ) := do
  let k ← s.core.postSwitch
  .ok (s.reclaim P tables clock k)

/-- What can happen: a space that no task owns is worked on, a task is spawned into one, and the
core acts, in which a program may write to its pages. -/
inductive Step (s : System σ) : System σ → Prop
  | build (op : SpaceOp) (hfree : ∀ i, s.owner i ≠ some op.name) :
      Step s { s with world := s.world.step P tables clock op }
  | spawn {heap : Heap} {stack : Option UInt64} {u : UserSpace} {grants : List Cap} {k : Machine}
      {j : ℕ} {a : AddressSpace} (hmove : s.core.Move (heap, .spawn stack (some u) grants) k)
      (hj : s.world.spaces j = some a) (hfree : ∀ i, s.owner i ≠ some j) (hroot : u.root = a.root)
      (hframes : u.frames = UInt64.ofNat (a.destroy P s.world.mem).1) :
      Step s ⟨k, s.world, if k.tasks.length = s.core.tasks.length then s.owner
        else Function.update s.owner s.core.tasks.length (some j)⟩
  | act {l : Heap × Machine.Act} {k : Machine} {w : World σ} (hplain : l.2.Plain)
      (hmove : s.core.Move l k) (hw : s.world.Rewritten P clock held w) : Step s ⟨k, w, s.owner⟩
  | resume {heap : Heap} {k : Machine} (hmove : s.core.Move (heap, .resume) k) :
      Step s (s.reclaim P tables clock k)

/-- From boot in the kernel's tree, with a memory that holds no space yet. -/
def start (m₀ : Mem σ) : System σ := ⟨.init tables.root, ⟨m₀, fun _ => none⟩, fun _ => none⟩

/-- The states of every run from boot. -/
def Reached (m₀ : Mem σ) (s : System σ) : Prop :=
  Relation.ReflTransGen (Step P tables clock held) (start tables m₀) s

/-- What the tasks hold is what the memory has: each space is one task's, or nobody's yet. -/
structure Linked (m₀ : Mem σ) (s : System σ) : Prop where
  sound : s.core.Sound
  separate : Separate P tables clock held (held m₀.pool) (m₀.read P) s.world
  present : ∀ i j, s.owner i = some j → ∃ a, s.world.spaces j = some a ∧
    s.core.spaceAt i = some (a.root, UInt64.ofNat (spaceFrames P clock a.root s.world.mem).length)
  absent : ∀ i, s.owner i = none → s.core.spaceAt i = none
  single : ∀ i i' j, s.owner i = some j → s.owner i' = some j → i = i'

/-- The frames that came back when task `t` was settled: those of its own space, and nobody
else's. -/
structure Reclaimed (m₀ : Mem σ) (t : ℕ) (s s' : System σ) (gone : List UInt64) : Prop where
  freed : Freed P held s.world.mem s'.world.mem gone
  own : ∀ x u, s.core.tasks[t]? = some x → x.space = some u → ∃ j a, s.owner t = some j ∧
    s.world.spaces j = some a ∧ u.root = a.root ∧ u.frames = UInt64.ofNat gone.length ∧
    gone.Perm (spaceFrames P clock a.root s.world.mem) ∧ s'.world.spaces j = none
  spaceless : ∀ x, s.core.tasks[t]? = some x → x.space = none → gone = []
  others : ∀ j a, s.owner t ≠ some j → s.world.spaces j = some a →
    s'.world.spaces j = some a ∧
    spaceFrames P clock a.root s'.world.mem = spaceFrames P clock a.root s.world.mem ∧
    ∀ q ∈ spaceFrames P clock a.root s.world.mem, q ∉ gone
  kernel : ∀ q ∈ held m₀.pool, q ∉ gone

end System

end

/-! ### The spaces of the tasks -/

namespace Machine

variable {k k' : Machine} {l : Heap × Act} {i : ℕ} {x : Task}

theorem spaceAt_of_task (hx : k.tasks[i]? = some x) : k.spaceAt i = x.seat.space := by
  simp [spaceAt, hx]

theorem spaceAt_of_none (hx : k.tasks[i]? = none) : k.spaceAt i = none := by simp [spaceAt, hx]

/-- Task `i` is the dead one that the loaded continuation settles. -/
def Settles (i : ℕ) (k : Machine) : Prop :=
  k.loaded.isSome ∧ k.prev = some i ∧ ∃ x, k.tasks[i]? = some x ∧ x.state = .dead

/-- A task keeps its space until it is settled. -/
theorem Move.spaceAt (hs : k.Sound) (hm : Move k l k') (hx : k.tasks[i]? = some x)
    (hnot : ¬Settles i k) : k'.spaceAt i = k.spaceAt i := by
  obtain ⟨s, hseat, hf⟩ := (hm.staged hs.coherent hs.queued).fate (stage_seat hx)
  obtain ⟨y, hy, rfl⟩ := of_stage_seat hseat
  rw [spaceAt_of_task hx, spaceAt_of_task hy]
  generalize y.seat = s at hf
  cases hf with
  | kept => rfl
  | woken => rfl
  | left => rfl
  | entered => rfl
  | released hd hprev hl => exact absurd ⟨hl, hprev, x, hx, hd⟩ hnot

/-- Only a spawn into a space makes a task with one. -/
theorem Move.spaceAt_new (hs : k.Sound) (hm : Move k l k') (hx : k.tasks[i]? = none)
    (hno : ∀ stack u grants, l.2 ≠ .spawn stack (some u) grants) : k'.spaceAt i = none := by
  cases hy : k'.tasks[i]? with
  | none => exact spaceAt_of_none hy
  | some y =>
    obtain ⟨stack, grants, hact⟩ := hm.joined hs hx hy
    rw [spaceAt_of_task hy]
    cases hspace : y.space with
    | none => simp [Task.seat, hspace]
    | some u => exact absurd (hspace ▸ hact) (hno stack u grants)

/-- The settled task has no space any more. -/
theorem Move.spaceAt_settled (hs : k.Sound) {heap : Heap} (hm : Move k (heap, .resume) k')
    (hset : Settles i k) : k'.spaceAt i = none := by
  obtain ⟨hl, hprev, x, hx, hd⟩ := hset
  obtain ⟨hstep, hnone⟩ := resume_step hs.coherent hm.2
  obtain hsame | ⟨-, hseat, -⟩ := hstep.settles hl (stage_seat hx) hprev hd
  · have hprev' : k'.prev = k.prev := congrArg Stage.prev hsame
    rw [hnone, hprev] at hprev'
    cases hprev'
  · obtain ⟨y, hy, hgive⟩ := of_stage_seat hseat
    rw [spaceAt_of_task hy, hgive]
    rfl

/-- A spawn adds one task, in the space it is given, or none. -/
theorem spawnUser_tasks (heap : Heap) (stack : Option UInt64) (u : Option UserSpace)
    (grants : List Cap) (k : Machine) :
    (k.spawnUser heap stack u grants).tasks = k.tasks ∨
      ∃ x, (k.spawnUser heap stack u grants).tasks = k.tasks ++ [x] ∧ x.space = u := by
  unfold spawnUser
  split
  · exact .inl rfl
  · cases stack with
    | none => exact .inl rfl
    | some top => exact .inr ⟨_, rfl, rfl⟩

end Machine

section

variable {σ : Type} {P : FramePool σ} {tables : Tables} {clock : UInt64} {held : σ → Set UInt64}
  {m₀ : Mem σ} {s s' : System σ} {w : World σ} {k : Machine} {i j : ℕ} {a : AddressSpace}

/-! ### One step of the system -/

/-- A program that writes to its pages changes no space. -/
theorem Separate.rewritten {kept : Set UInt64} {orig : UInt64 → ℕ → UInt64} {w' : World σ}
    (h : Separate P tables clock held kept orig w) (hw : w.Rewritten P clock held w') :
    Separate P tables clock held kept orig w' ∧ ∀ k a, w.spaces k = some a →
      spaceFrames P clock a.root w'.mem = spaceFrames P clock a.root w.mem := by
  have htable : ∀ k a, w.spaces k = some a → ∀ t ∈ spaceTables P a.root w.mem, ∀ i < 512,
      w'.mem.read P t i = w.mem.read P t i := by
    intro k a hk t ht i hi
    refine hw.frame t ((h.ok k a hk).owned t ((h.ok k a hk).tables_sub ht)) ?_ i hi
    intro j b hj hin
    by_cases hjk : j = k
    · obtain rfl := Option.some.inj ((hjk ▸ hj).symm.trans hk)
      exact ht
    · exact absurd ((h.ok k a hk).tables_sub ht) (h.apart j k b a hjk hj hk t hin)
  have hsame : ∀ k a, w.spaces k = some a → SpaceOk P held clock a w'.mem ∧
      spaceFrames P clock a.root w'.mem = spaceFrames P clock a.root w.mem := by
    intro k a hk
    obtain ⟨hok, hframes, -⟩ := (h.ok k a hk).congr (fun q hq _ => hw.outstanding ▸ hq) (htable k a hk)
    exact ⟨hok, hframes⟩
  refine ⟨?_, fun k a hk => (hsame k a hk).2⟩
  constructor
  · intro k a hk
    exact (hsame k a (hw.spaces ▸ hk)).1
  · intro k a hk q hq
    rw [hw.spaces] at hk
    exact h.fresh k a hk q ((hsame k a hk).2 ▸ hq)
  · intro j k a b hne hj hk q hq
    rw [hw.spaces] at hj hk
    rw [(hsame k b hk).2]
    exact h.apart j k a b hne hj hk q ((hsame j a hj).2 ▸ hq)
  · intro t ht
    obtain ⟨hmem, hread⟩ := h.kernel t ht
    refine ⟨hw.outstanding ▸ hmem, fun i hi => ?_⟩
    have hnone : ∀ k a, w.spaces k = some a → t ∈ spaceFrames P clock a.root w.mem →
        t ∈ spaceTables P a.root w.mem := fun k a hk hin => absurd ht (h.fresh k a hk t hin)
    exact (hw.frame t hmem hnone i hi).trans (hread i hi)
  · intro k a hk i hi hlo
    rw [hw.spaces] at hk
    have hroot : a.root ∈ spaceTables P a.root w.mem := (h.ok k a hk).root_table
    exact (htable k a hk a.root hroot i hi).trans (h.upper k a hk i hi hlo)

namespace System

theorem released_iff : s.released = some (i, j) ↔
    s.core.prev = some i ∧ (∃ x, s.core.tasks[i]? = some x ∧ x.state = .dead) ∧
      s.owner i = some j := by
  unfold released
  constructor
  · intro h
    split at h
    · cases h
    · next p hp =>
      split at h
      · cases h
      · next x hx =>
        split at h
        · next hd =>
          obtain ⟨j', hj, heq⟩ := Option.map_eq_some_iff.mp h
          obtain ⟨rfl, rfl⟩ := Prod.ext_iff.mp heq
          exact ⟨hp, ⟨x, hx, hd⟩, hj⟩
        · cases h
  · rintro ⟨hp, ⟨x, hx, hd⟩, hj⟩
    simp [hp, hx, hd, hj]

theorem Linked.start : (start tables m₀).Linked P tables clock held m₀ where
  sound := Machine.init_sound tables.root
  separate := ⟨nofun, nofun, nofun, fun _ ht => ⟨ht, fun _ _ => rfl⟩, nofun⟩
  present _ _ := nofun
  absent _ _ := rfl
  single _ _ _ := nofun

/-- The frames of a space that an operation on another name leaves alone. -/
theorem Linked.beside (h : s.Linked P tables clock held m₀) {n : ℕ} {w' : World σ}
    (hs : SpaceStep P tables clock held s.world n w') (hne : j ≠ n)
    (hj : s.world.spaces j = some a) : w'.spaces j = some a ∧
      spaceFrames P clock a.root w'.mem = spaceFrames P clock a.root s.world.mem :=
  ⟨(h.separate.beside hs hne hj).1, (h.separate.others hs hne hj).2.1⟩

theorem Linked.build (hP : P.Lawful held) (hclock : clock ∈ held m₀.pool) (hframed : Framed clock)
    (hroot : tables.root ∈ held m₀.pool) (h : s.Linked P tables clock held m₀) {op : SpaceOp}
    (hfree : ∀ i, s.owner i ≠ some op.name) :
    Linked P tables clock held m₀ { s with world := s.world.step P tables clock op } := by
  have hstep := h.separate.spaceStep hP hclock hframed hroot op
  refine ⟨h.sound, h.separate.step hroot hstep, fun i j hij => ?_, h.absent, h.single⟩
  obtain ⟨a, hj, hspace⟩ := h.present i j hij
  have hne : j ≠ op.name := fun heq => hfree i (heq ▸ hij)
  obtain ⟨hname, hframes⟩ := h.beside hstep hne hj
  exact ⟨a, hname, by rw [hframes]; exact hspace⟩

/-- The core moves on, the tasks keep their spaces, and the spaces the tasks own their frames. -/
theorem Linked.moved (h : s.Linked P tables clock held m₀) (hs : k.Sound)
    (hsep : Separate P tables clock held (held m₀.pool) (m₀.read P) w)
    (hcore : ∀ i, k.spaceAt i = s.core.spaceAt i)
    (hworld : ∀ j a, s.world.spaces j = some a → w.spaces j = some a ∧
      spaceFrames P clock a.root w.mem = spaceFrames P clock a.root s.world.mem) :
    Linked P tables clock held m₀ ⟨k, w, s.owner⟩ where
  sound := hs
  separate := hsep
  present i j hij := by
    obtain ⟨a, hj, hspace⟩ := h.present i j hij
    obtain ⟨hname, hframes⟩ := hworld j a hj
    exact ⟨a, hname, by rw [hframes, hcore, hspace]⟩
  absent i hi := (hcore i).trans (h.absent i hi)
  single := h.single

theorem Linked.act (h : s.Linked P tables clock held m₀) {l : Heap × Machine.Act}
    (hplain : l.2.Plain) (hmove : s.core.Move l k) (hw : s.world.Rewritten P clock held w) :
    Linked P tables clock held m₀ ⟨k, w, s.owner⟩ := by
  have hne : l.2 ≠ .resume := fun heq => by simp [heq, Machine.Act.Plain] at hplain
  have hno : ∀ stack u grants, l.2 ≠ .spawn stack (some u) grants :=
    fun stack u grants heq => by simp [heq, Machine.Act.Plain] at hplain
  obtain ⟨hsep, hframes⟩ := h.separate.rewritten hw
  refine h.moved (h.sound.move hmove) hsep (fun i => ?_) fun j a hj => ⟨hw.spaces ▸ hj, hframes j a hj⟩
  cases hx : s.core.tasks[i]? with
  | none => rw [hmove.spaceAt_new h.sound hx hno, Machine.spaceAt_of_none hx]
  | some x =>
    refine hmove.spaceAt h.sound hx fun hset => ?_
    have hl := hset.1
    rw [hmove.1.unloaded hne] at hl
    cases hl

/-- A new task takes over a space nobody owned. -/
theorem Linked.given (h : s.Linked P tables clock held m₀) (hs : k.Sound) {n : ℕ}
    (hj : s.world.spaces j = some a) (hfree : ∀ i, s.owner i ≠ some j)
    (hnew : k.spaceAt n =
      some (a.root, UInt64.ofNat (spaceFrames P clock a.root s.world.mem).length))
    (hold : ∀ i, i ≠ n → k.spaceAt i = s.core.spaceAt i) :
    Linked P tables clock held m₀ ⟨k, s.world, Function.update s.owner n (some j)⟩ := by
  have howner : ∀ i j', Function.update s.owner n (some j) i = some j' →
      (i = n ∧ j = j') ∨ (i ≠ n ∧ s.owner i = some j') := by
    intro i j' hij
    by_cases hi : i = n
    · subst hi
      rw [Function.update_self] at hij
      exact .inl ⟨rfl, Option.some.inj hij⟩
    · rw [Function.update_of_ne hi] at hij
      exact .inr ⟨hi, hij⟩
  refine ⟨hs, h.separate, fun i j' hij => ?_, fun i hi => ?_, fun i i' j' hij hij' => ?_⟩
  · obtain ⟨rfl, rfl⟩ | ⟨hi, hij⟩ := howner i j' hij
    · exact ⟨a, hj, hnew⟩
    · rw [hold i hi]
      exact h.present i j' hij
  · have hi : Function.update s.owner n (some j) i = none := hi
    by_cases heq : i = n
    · subst heq
      rw [Function.update_self] at hi
      cases hi
    · rw [Function.update_of_ne heq] at hi
      exact (hold i heq).trans (h.absent i hi)
  · obtain ⟨rfl, rfl⟩ | ⟨-, hi⟩ := howner i j' hij
    · obtain ⟨rfl, -⟩ | ⟨-, hi'⟩ := howner i' j hij'
      · rfl
      · exact absurd hi' (hfree i')
    · obtain ⟨rfl, rfl⟩ | ⟨-, hi'⟩ := howner i' j' hij'
      · exact absurd hi (hfree i)
      · exact h.single i i' j' hi hi'

theorem Linked.spawn (hP : P.Lawful held) (h : s.Linked P tables clock held m₀) {heap : Heap}
    {stack : Option UInt64} {u : UserSpace} {grants : List Cap}
    (hmove : s.core.Move (heap, .spawn stack (some u) grants) k) (hj : s.world.spaces j = some a)
    (hfree : ∀ i, s.owner i ≠ some j) (hroot : u.root = a.root)
    (hframes : u.frames = UInt64.ofNat (a.destroy P s.world.mem).1) :
    Linked P tables clock held m₀ ⟨k, s.world,
      if k.tasks.length = s.core.tasks.length then s.owner
        else Function.update s.owner s.core.tasks.length (some j)⟩ := by
  have hk : s.core.spawnUser heap stack (some u) grants = k := Except.ok.inj hmove.2
  have htasks := Machine.spawnUser_tasks heap stack (some u) grants s.core
  rw [hk] at htasks
  obtain hsame | ⟨x, hgrew, hx⟩ := htasks
  · rw [if_pos (congrArg List.length hsame)]
    refine h.moved (h.sound.move hmove) h.separate (fun i => ?_) fun j a hj => ⟨hj, rfl⟩
    rw [Machine.spaceAt, Machine.spaceAt, hsame]
  · have hlen : k.tasks.length = s.core.tasks.length + 1 := by
      rw [hgrew, List.length_append, List.length_singleton]
    rw [if_neg (by omega)]
    refine h.given (h.sound.move hmove) hj hfree ?_ fun i hi => ?_
    · obtain ⟨freed, hcount, -, hperm⟩ := destroy_spec hP (h.separate.ok j a hj)
      have hy : k.tasks[s.core.tasks.length]? = some x := by
        rw [hgrew, List.getElem?_append_right le_rfl, Nat.sub_self]
        rfl
      rw [Machine.spaceAt_of_task hy]
      simp [Task.seat, hx, hroot, hframes, hcount, hperm.length_eq]
    · rw [Machine.spaceAt, Machine.spaceAt]
      obtain hlt | hlt := Nat.lt_or_gt_of_ne hi
      · rw [hgrew, List.getElem?_append_left hlt]
      · rw [List.getElem?_eq_none (by omega), List.getElem?_eq_none (by omega)]

/-- The core settles the task it came from, and keeps what everybody else holds. -/
theorem spaceAt_resume (hs : s.core.Sound) {heap : Heap} (hmove : s.core.Move (heap, .resume) k) :
    (s.core.Settles i → k.spaceAt i = none) ∧
      (¬s.core.Settles i → k.spaceAt i = s.core.spaceAt i) := by
  refine ⟨hmove.spaceAt_settled hs, fun hnot => ?_⟩
  cases hx : s.core.tasks[i]? with
  | none => rw [hmove.spaceAt_new hs hx (fun _ _ _ => nofun), Machine.spaceAt_of_none hx]
  | some x => exact hmove.spaceAt hs hx hnot

theorem Linked.resume (hP : P.Lawful held) (hclock : clock ∈ held m₀.pool) (hframed : Framed clock)
    (hroot : tables.root ∈ held m₀.pool) (h : s.Linked P tables clock held m₀) {heap : Heap}
    (hmove : s.core.Move (heap, .resume) k) :
    Linked P tables clock held m₀ (s.reclaim P tables clock k) := by
  have hcore := fun i => spaceAt_resume (i := i) h.sound hmove
  unfold reclaim
  split
  · next hnone =>
    refine h.moved (h.sound.move hmove) h.separate (fun i => ?_) fun j a hj => ⟨hj, rfl⟩
    by_cases hset : s.core.Settles i
    · obtain ⟨-, hprev, hdead⟩ := id hset
      rw [(hcore i).1 hset, h.absent]
      by_contra hown
      obtain ⟨j, hj⟩ := Option.ne_none_iff_exists'.mp hown
      rw [released_iff.mpr ⟨hprev, hdead, hj⟩] at hnone
      cases hnone
    · exact (hcore i).2 hset
  · next p j hsome =>
    obtain ⟨hprev, hdead, hown⟩ := released_iff.mp hsome
    have hset : s.core.Settles p := ⟨hmove.1, hprev, hdead⟩
    have hother : ∀ i, i ≠ p → k.spaceAt i = s.core.spaceAt i := fun i hi =>
      (hcore i).2 fun hset' => hi (Option.some.inj (hset'.2.1.symm.trans hprev))
    have hstep := h.separate.spaceStep hP hclock hframed hroot (.destroy j)
    have howner : ∀ i j', Function.update s.owner p none i = some j' → i ≠ p ∧ s.owner i = some j' := by
      intro i j' hij
      rw [Function.update_apply] at hij
      split at hij
      · cases hij
      · next hi => exact ⟨hi, hij⟩
    refine ⟨h.sound.move hmove, h.separate.step hroot hstep, fun i j' hij => ?_, fun i hi => ?_,
      fun i i' j' hij hij' => h.single i i' j' (howner i j' hij).2 (howner i' j' hij').2⟩
    · obtain ⟨hi, hij⟩ := howner i j' hij
      obtain ⟨a, hj', hspace⟩ := h.present i j' hij
      have hne : j' ≠ j := fun heq => hi (h.single i p j (heq ▸ hij) hown)
      obtain ⟨hname, hframes⟩ := h.beside hstep hne hj'
      exact ⟨a, hname, by rw [hother i hi, hframes]; exact hspace⟩
    · by_cases heq : i = p
      · exact heq ▸ (hcore p).1 hset
      · have hi : Function.update s.owner p none i = none := hi
        rw [Function.update_of_ne heq] at hi
        exact (hother i heq).trans (h.absent i hi)

theorem Linked.step (hP : P.Lawful held) (hclock : clock ∈ held m₀.pool) (hframed : Framed clock)
    (hroot : tables.root ∈ held m₀.pool) (h : s.Linked P tables clock held m₀)
    (hs : s.Step P tables clock held s') : Linked P tables clock held m₀ s' := by
  cases hs with
  | build op hfree => exact h.build hP hclock hframed hroot hfree
  | spawn hmove hj hfree hr hframes => exact h.spawn hP hmove hj hfree hr hframes
  | act hplain hmove hw => exact h.act hplain hmove hw
  | resume hmove => exact h.resume hP hclock hframed hroot hmove

theorem Reached.linked (hP : P.Lawful held) (hclock : clock ∈ held m₀.pool) (hframed : Framed clock)
    (hroot : tables.root ∈ held m₀.pool) (h : Reached P tables clock held m₀ s) :
    Linked P tables clock held m₀ s := by
  induction h with
  | refl => exact Linked.start
  | tail _ hs ih => exact ih.step hP hclock hframed hroot hs

/-- What a task holds is the space it owns. -/
theorem Linked.owned (h : s.Linked P tables clock held m₀) {x : Task}
    (hx : s.core.tasks[i]? = some x) :
    (x.space = none ∧ s.owner i = none) ∨ ∃ u j a, x.space = some u ∧ s.owner i = some j ∧
      s.world.spaces j = some a ∧ u.root = a.root ∧
      u.frames = UInt64.ofNat (spaceFrames P clock a.root s.world.mem).length := by
  have hspace := Machine.spaceAt_of_task hx
  cases hown : s.owner i with
  | none =>
    rw [h.absent i hown] at hspace
    exact .inl ⟨by simpa [Task.seat] using hspace.symm, rfl⟩
  | some j =>
    obtain ⟨a, hj, heq⟩ := h.present i j hown
    rw [heq] at hspace
    obtain ⟨u, hu, hroot, hframes⟩ : ∃ u, x.space = some u ∧ u.root = a.root ∧
        u.frames = UInt64.ofNat (spaceFrames P clock a.root s.world.mem).length := by
      simpa [Task.seat, Prod.ext_iff] using hspace.symm
    exact .inr ⟨u, j, a, hu, rfl, hj, hroot, hframes⟩

theorem reclaim_core : (s.reclaim P tables clock k).core = k := by
  unfold reclaim
  split <;> rfl

/-- Reclaiming after task `t`, dead by now, was switched away from. -/
theorem Linked.reclaimed (hP : P.Lawful held) (h : s.Linked P tables clock held m₀) {t : ℕ}
    {x z : Task} {k₁ k₂ : Machine} (hx : s.core.tasks[t]? = some x) (hprev : k₁.prev = some t)
    (hz : k₁.tasks[t]? = some z) (hd : z.state = .dead) :
    ∃ gone, Reclaimed P clock held m₀ t s
      (({ s with core := k₁ } : System σ).reclaim P tables clock k₂) gone := by
  unfold reclaim
  obtain ⟨hspace, hown⟩ | ⟨u, j, a, hu, hown, hj, hroot, hframes⟩ := h.owned hx
  · have hnone : ({ s with core := k₁ } : System σ).released = none := by
      simp [released, hprev, hz, hd, hown]
    rw [hnone]
    refine ⟨[], Freed.refl _, fun y u hy hyu => ?_, fun _ _ _ => rfl, fun j a _ hj => ?_, by simp⟩
    · obtain rfl := Option.some.inj (hx.symm.trans hy)
      cases hspace.symm.trans hyu
    · exact ⟨hj, rfl, by simp⟩
  · have hsome : ({ s with core := k₁ } : System σ).released = some (t, j) :=
      released_iff.mpr ⟨hprev, ⟨z, hz, hd⟩, hown⟩
    rw [hsome]
    obtain ⟨gone, hcount, hf, hperm⟩ := destroy_spec hP (h.separate.ok j a hj)
    have hworld : s.world.step P tables clock (.destroy j) =
        s.world.put j none (a.destroy P s.world.mem).2 := by
      simp only [World.step, hj]
    simp only [hworld]
    refine ⟨gone, hf, fun y v hy hyv => ?_, fun y hy hnone => ?_, fun i b hi hb => ?_, fun q hq hin => ?_⟩
    · obtain rfl := Option.some.inj (hx.symm.trans hy)
      obtain rfl := Option.some.inj (hu.symm.trans hyv)
      refine ⟨j, a, hown, hj, hroot, hperm.length_eq ▸ hframes, hperm, ?_⟩
      rw [World.put_spaces, if_pos rfl]
    · obtain rfl := Option.some.inj (hx.symm.trans hy)
      cases hnone.symm.trans hu
    · have hne : i ≠ j := fun heq => hi (heq ▸ hown)
      obtain ⟨hname, hsame⟩ := h.beside (.freed hj hf hperm) hne hb
      refine ⟨hname, hsame, fun q hq hin => ?_⟩
      exact h.separate.apart i j b a hne hb hj q hq (hperm.mem_iff.mp hin)
    · exact h.separate.fresh j a hj q (hperm.mem_iff.mp hin) hq

/-- Killing a task is local: the others keep all they have, but for the one that runs next; what
was sent stays sent; and the frames that come back are those of the task's own space. -/
theorem killing_is_local (hP : P.Lawful held) (hclock : clock ∈ held m₀.pool)
    (hframed : Framed clock) (hroot : tables.root ∈ held m₀.pool)
    (h : Reached P tables clock held m₀ s) {t : ℕ} {heap : Heap} {r : Except Panic Machine}
    (hk : s.core.current = some t) (hl : s.core.loaded = none) (hend : s.core.Ends heap r) :
    ∃ k₁ s₂ gone, r = .ok k₁ ∧
      ({ s with core := { k₁ with loaded := none } } : System σ).postSwitch P tables clock = .ok s₂ ∧
      s.core.Departed t k₁ s₂.core ∧ Reclaimed P clock held m₀ t s s₂ gone := by
  have hlink := h.linked hP hclock hframed hroot
  obtain ⟨k₁, k₂, hr, hpost, hd⟩ := hend.departed hlink.sound.coherent hlink.sound.queued hk hl
  obtain ⟨x, hx, -, -⟩ := hd.own
  obtain ⟨hprev, ⟨z, hz, hdead⟩, -⟩ := hd.settled
  obtain ⟨gone, hgone⟩ : ∃ gone, Reclaimed P clock held m₀ t s
      (({ s with core := { k₁ with loaded := none } } : System σ).reclaim P tables clock k₂) gone :=
    hlink.reclaimed hP hx hprev hz hdead
  refine ⟨k₁, _, gone, hr, ?_, ?_, hgone⟩
  · simp only [postSwitch, hpost]
    rfl
  · rw [reclaim_core]
    exact hd

end System

end

/-! ### Two tasks -/

namespace System

def pairTables : Tables := ⟨0, false⟩

/-- Two spaces, each with a stack. -/
def pairWorld : World FrameStack :=
  [.new 0, .mapStack 0, .new 1, .mapStack 1].foldl
    (World.step FrameStack.pool pairTables smallClock) ⟨smallMemory, fun _ => none⟩

def pairRoot (j : ℕ) : UInt64 := if j = 0 then 0x200000 else 0x205000

def pairSpace (j : ℕ) : AddressSpace := ⟨pairRoot j, 0, false, none⟩

def pairUser (j : ℕ) : UserSpace :=
  { Machine.flat with
    root := pairRoot j
    frames := UInt64.ofNat ((pairSpace j).destroy FrameStack.pool pairWorld.mem).1 }

theorem pairUser_frames (j : ℕ) : (pairUser j).frames =
    UInt64.ofNat ((pairSpace j).destroy FrameStack.pool pairWorld.mem).1 := by rw [pairUser]

/-- Two tasks are spawned, each into a space of its own; the first runs, and its message fills a
slot of the ring. -/
def pairActs : List Machine.Act :=
  [.create (.endpoint 2), .spawn (some 0x9000) (some (pairUser 0)) [.endpoint ⟨0, 0⟩ true true],
    .spawn (some 0xA000) (some (pairUser 1)) [.endpoint ⟨0, 0⟩ false true], .start, .resume,
    .syscall ⟨1, 1, 0x2000, 0⟩]

/-- Each task owns the space of its number. -/
def pair : System FrameStack :=
  ⟨Machine.after pairActs, pairWorld,
    Function.update (Function.update (fun _ => none) 0 (some 0)) 1 (some 1)⟩

theorem pair_move (n : ℕ) {act : Machine.Act} (hact : pairActs[n]? = some act)
    (h : (Machine.perform ⟨8, by decide⟩ (pairActs.take (n + 1)) (.init 0)).isSome) :
    (Machine.after (pairActs.take n)).Move (⟨8, by decide⟩, act)
      (Machine.after (pairActs.take (n + 1))) := by
  have htake : pairActs.take (n + 1) = pairActs.take n ++ [act] := by
    rw [List.take_add_one, hact]
    rfl
  rw [htake] at h ⊢
  exact Machine.step_after (pairActs.take n) act h

theorem pairWorld_first : pairWorld.spaces 0 = some (pairSpace 0) := by decide +kernel

theorem pairWorld_second : pairWorld.spaces 1 = some (pairSpace 1) := by decide +kernel

/-- The first continuation has nobody to settle. -/
theorem reclaim_of_first {σ : Type} {P : FramePool σ} {tables : Tables} {clock : UInt64}
    {s : System σ} {k : Machine} (h : s.core.prev = none) :
    s.reclaim P tables clock k = { s with core := k } := by
  rw [reclaim, released, h]

/-- Spaces are made before there is a task. -/
theorem reached_builds {σ : Type} {P : FramePool σ} {tables : Tables} {clock : UInt64}
    {held : σ → Set UInt64} {m₀ : Mem σ} (ops : List SpaceOp) :
    Reached P tables clock held m₀ ⟨.init tables.root,
      ops.foldl (World.step P tables clock) ⟨m₀, fun _ => none⟩, fun _ => none⟩ := by
  induction ops using List.reverseRecOn with
  | nil => exact .refl
  | append_singleton ops op ih =>
    rw [List.foldl_append]
    exact ih.tail (.build op fun _ => nofun)

section

variable {w : World FrameStack} {owner : ℕ → Option ℕ} (n : ℕ) {j : ℕ} {act : Machine.Act}

theorem pair_act (hact : pairActs[n]? = some act) (hplain : act.Plain)
    (hmove : (Machine.perform ⟨8, by decide⟩ (pairActs.take (n + 1)) (.init 0)).isSome)
    (h : Reached FrameStack.pool pairTables smallClock FrameStack.held smallMemory
      ⟨Machine.after (pairActs.take n), w, owner⟩) :
    Reached FrameStack.pool pairTables smallClock FrameStack.held smallMemory
      ⟨Machine.after (pairActs.take (n + 1)), w, owner⟩ :=
  h.tail (.act hplain (pair_move n hact hmove) ⟨rfl, rfl, rfl, rfl, fun _ _ _ _ _ => rfl⟩)

/-- A task is spawned into space `j`. -/
theorem pair_spawn {stack : Option UInt64} {u : UserSpace} {grants : List Cap} {a : AddressSpace}
    (hact : pairActs[n]? = some (.spawn stack (some u) grants))
    (hmove : (Machine.perform ⟨8, by decide⟩ (pairActs.take (n + 1)) (.init 0)).isSome)
    (hspace : w.spaces j = some a) (hroot : u.root = a.root)
    (hframes : u.frames = UInt64.ofNat (a.destroy FrameStack.pool w.mem).1)
    (hfree : ∀ i, owner i ≠ some j)
    (hlen : (Machine.after (pairActs.take n)).tasks.length = j)
    (hnew : (Machine.after (pairActs.take (n + 1))).tasks.length = j + 1)
    (h : Reached FrameStack.pool pairTables smallClock FrameStack.held smallMemory
      ⟨Machine.after (pairActs.take n), w, owner⟩) :
    Reached FrameStack.pool pairTables smallClock FrameStack.held smallMemory
      ⟨Machine.after (pairActs.take (n + 1)), w, Function.update owner j (some j)⟩ := by
  have hspawned := h.tail (.spawn (pair_move n hact hmove) hspace hfree hroot hframes)
  rw [if_neg (by rw [hlen, hnew]; omega), hlen] at hspawned
  exact hspawned

end

theorem pair_reached :
    Reached FrameStack.pool pairTables smallClock FrameStack.held smallMemory pair := by
  have hworld : Reached FrameStack.pool pairTables smallClock FrameStack.held smallMemory
      ⟨Machine.after (pairActs.take 0), pairWorld, fun _ => none⟩ := by
    rw [pairWorld]
    exact reached_builds _
  have hcreated := pair_act 0 rfl (by trivial) (by decide) hworld
  have hfirst := pair_spawn 1 rfl (by decide) pairWorld_first rfl (pairUser_frames 0)
    (fun _ h => by cases h) (by decide) (by decide) hcreated
  have hsecond := pair_spawn 2 rfl (by decide) pairWorld_second rfl (pairUser_frames 1) ?_
    (by decide) (by decide) hfirst
  · have hstarted := pair_act 3 rfl (by trivial) (by decide) hsecond
    have hrunning := hstarted.tail (.resume (pair_move 4 rfl (by decide)))
    rw [reclaim_of_first (by decide)] at hrunning
    dsimp only at hrunning
    exact pair_act 5 rfl (by trivial) (by decide) hrunning
  · intro i
    rw [Function.update_apply]
    split <;> nofun

/-- The first task exits: its message stays in the ring, the second runs next and keeps its
space. -/
theorem killing_is_local_pair : (pair.core.ipc delegatedEp).ring.len = 1 ∧
    (∃ y u, pair.core.tasks[1]? = some y ∧ y.state = .ready ∧ y.space = some u) ∧
    ∃ k₁ s₂ gone, pair.core.exit = .ok k₁ ∧
      ({ pair with core := { k₁ with loaded := none } } : System FrameStack).postSwitch
        FrameStack.pool pairTables smallClock = .ok s₂ ∧
      pair.core.Departed 0 k₁ s₂.core ∧
      Reclaimed FrameStack.pool smallClock FrameStack.held smallMemory 0 pair s₂ gone := by
  refine ⟨by decide, ⟨_, _, rfl, rfl, rfl⟩, ?_⟩
  exact killing_is_local FrameStack.lawful smallMemory_held.2.1 smallMemory_held.2.2
    ⟨by decide, by decide⟩ pair_reached rfl rfl
    (show Machine.Ends ⟨8, by decide⟩ pair.core pair.core.exit from .returned)

end System

end StarOs.Kernel
