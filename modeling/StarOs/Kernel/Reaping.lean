import StarOs.Kernel.Contexts
import StarOs.Kernel.Confinement
import StarOs.Library.Counting

/-! Reaping: a dead task gives up its stack and its space once, in the first
`post_switch` after the switch away from it, when neither is in use any more. -/

namespace StarOs.Kernel

open Library

namespace Stage

variable {s s' : Stage} {root : UInt64} {i : ℕ} {x y : Seat}

/-! ### Trees are not shared -/

/-- No two seats hold the same tree, and none holds the kernel's. -/
structure Apart (root : UInt64) (s : Stage) : Prop where
  kernel : ∀ (i : ℕ) (x : Seat) (r f : UInt64), s.seats[i]? = some x → x.space = some (r, f) →
    r ≠ root
  distinct : ∀ (i j : ℕ) (x y : Seat) (r f f' : UInt64), s.seats[i]? = some x →
    s.seats[j]? = some y → x.space = some (r, f) → y.space = some (r, f') → i = j

theorem Fate.space (h : Fate s s' i x y) {r f : UInt64} (hy : y.space = some (r, f)) :
    x.space = some (r, f) := by
  cases h with
  | released => cases hy
  | _ => exact hy

/-- A step keeps the trees apart when a seat that joins brings a new one. -/
theorem Apart.step (ha : Apart root s) (h : Step s s')
    (hnew : ∀ (i : ℕ) (y : Seat) (r f : UInt64), s.seats[i]? = none → s'.seats[i]? = some y →
      y.space = some (r, f) → r ≠ root ∧
        ∀ (j : ℕ) (x : Seat) (f' : UInt64), s.seats[j]? = some x → x.space ≠ some (r, f')) :
    Apart root s' := by
  constructor
  · intro i y r f hy hsp
    obtain ⟨x, hx, hf⟩ | ⟨hno, -⟩ := h.origin hy
    · exact ha.kernel i x r f hx (hf.space hsp)
    · exact (hnew i y r f hno hy hsp).1
  · intro i j y z r f f' hy hz hsy hsz
    obtain ⟨x, hx, hf⟩ | ⟨hno, -, -, heq⟩ := h.origin hy
    · obtain ⟨w, hw, hf'⟩ | ⟨hno, -⟩ := h.origin hz
      · exact ha.distinct i j x w r f f' hx hw (hf.space hsy) (hf'.space hsz)
      · exact absurd (hf.space hsy) ((hnew j z r f' hno hz hsz).2 i x f hx)
    · obtain ⟨w, hw, hf'⟩ | ⟨hno', -⟩ := h.origin hz
      · exact absurd (hf'.space hsz) ((hnew i y r f hno hy hsy).2 j w f' hw)
      · -- only one seat joins
        rw [heq] at hy hz
        have hlen := List.getElem?_eq_none_iff.mp hno
        have hlen' := List.getElem?_eq_none_iff.mp hno'
        have hi := (List.getElem?_eq_some_iff.mp hy).1
        have hj := (List.getElem?_eq_some_iff.mp hz).1
        simp only [List.length_append, List.length_singleton] at hi hj
        omega

/-- No live seat runs in the tree of a dead one. -/
theorem Apart.cr3_ne (ha : Apart root s) (hv : Valid root s) {r f : UInt64}
    (hx : s.seats[i]? = some x) (hd : x.state = .dead) (hsp : x.space = some (r, f)) {j : ℕ}
    (hy : s.seats[j]? = some y) (hlive : y.state ≠ .dead) : y.cr3 ≠ r := by
  cases hspy : y.space with
  | none =>
    rw [hv.thread j y hy hlive hspy]
    exact (ha.kernel i x r f hx hsp).symm
  | some p =>
    obtain ⟨r', f'⟩ := p
    rw [hv.tree j y r' f' hy hspy]
    rintro rfl
    obtain rfl := ha.distinct i j x y _ f f' hx hy hsp hspy
    obtain rfl := Option.some.inj (hx.symm.trans hy)
    exact hlive hd

/-- Nor does the core, wherever it is. -/
theorem Apart.core_ne (ha : Apart root s) (hv : Valid root s) {r f : UInt64}
    (hx : s.seats[i]? = some x) (hd : x.state = .dead) (hsp : x.space = some (r, f)) :
    s.cpu.cr3 ≠ r := by
  cases hcur : s.current with
  | none =>
    rw [hv.home hcur]
    exact (ha.kernel i x r f hx hsp).symm
  | some p =>
    obtain ⟨z, hz, hrun⟩ := hv.seated p hcur
    rw [(hv.registers p z hcur hz).1]
    exact ha.cr3_ne hv hx hd hsp hz (by simp [hrun])

/-! ### What was released is counted -/

/-- A dead seat without its stack. -/
def stackless (x : Seat) : Bool := x.state = .dead ∧ x.stack = 0

/-- A dead seat that had a tree of its own, and has none now. -/
def spaceless (root : UInt64) (x : Seat) : Bool :=
  x.state = .dead ∧ x.space = none ∧ x.cr3 ≠ root

/-- A property only a released seat can have. -/
def Posthumous (s : Stage) (p : Seat → Bool) : Prop :=
  ∀ (i : ℕ) (x : Seat), s.seats[i]? = some x → x.state ≠ .dead →
    ∀ st ctx, p { x with state := st, ctx := ctx } = false

theorem Valid.stackless (hv : Valid root s) : Posthumous s stackless := by
  intro i x hx hlive st ctx
  have hstack := hv.stack i x hx hlive
  simp [Stage.stackless, hstack, stackWords]

theorem Valid.spaceless (hv : Valid root s) : Posthumous s (spaceless root) := by
  intro i x hx hlive st ctx
  have hthread := hv.thread i x hx hlive
  simpa [Stage.spaceless] using fun _ => hthread

/-- The reaping counters are what they were. -/
def SameReaped (t t' : Tally) : Prop :=
  t'.reapedStacks = t.reapedStacks ∧ t'.reapedWords = t.reapedWords ∧
    t'.reapedSpaces = t.reapedSpaces ∧ t'.reapedFrames = t.reapedFrames

/-- A step that releases seat `i`, which is `x`. -/
def Releases (s s' : Stage) (i : ℕ) (x : Seat) : Prop :=
  s.prev = some i ∧ s.seats[i]? = some x ∧ x.state = .dead ∧ s'.tally = s.tally.reaped x

theorem settle_count (p : Seat → Bool) (s : Stage) :
    (∃ i x, Releases s s.settle i x ∧
      s.settle.seats.countP p + tick (p x) = s.seats.countP p + tick (p x.give)) ∨
    (s.settle.tally = s.tally ∧ s.settle.seats.countP p = s.seats.countP p) := by
  cases hp : s.prev with
  | none => exact .inr (by simp [settle, hp])
  | some i =>
    cases hx : s.seats[i]? with
    | none => exact .inr (by simp [settle, hp, hx])
    | some x =>
      by_cases hd : x.state = .dead
      · refine .inl ⟨i, x, ⟨hp, hx, hd, by simp [settle, hp, hx]⟩, ?_⟩
        have hcount := countP_modify p (fun x => if x.state = .dead then x.give else x) hx
        simpa [settle, hp, hx, hd] using hcount
      · refine .inr ⟨by simp [settle, hp, hx, Tally.reaped, hd], ?_⟩
        have hcount := countP_modify_of_eq p (fun x => if x.state = .dead then x.give else x) hx
          (by simp [hd])
        simpa [settle, hp, hx] using hcount

/-- A step releases one seat, or counts none. -/
theorem Step.count {p : Seat → Bool} (h : Step s s') (hp : Posthumous s p)
    (hfresh : ∀ x, x.state = .ready → p x = false) :
    (∃ i x, Releases s s' i x ∧
      s'.seats.countP p + tick (p x) = s.seats.countP p + tick (p x.give)) ∨
    (SameReaped s.tally s'.tally ∧ s'.seats.countP p = s.seats.countP p) := by
  -- a live seat counts for nothing before and after it changes state
  have hmove : ∀ {i : ℕ} {x : Seat} (st : State) (ctx : Seat → Context), s.seats[i]? = some x →
      x.state ≠ .dead → ∀ l : List Seat, l[i]? = some x →
        (l.modify i fun x => { x with state := st, ctx := ctx x }).countP p = l.countP p := by
    intro i x st ctx hx hlive l hl
    refine countP_modify_of_eq p _ hl ?_
    rw [hp i x hx hlive st (ctx x)]
    exact (hp i x hx hlive x.state x.ctx).symm
  have hsame : SameReaped s.tally s.tally := ⟨rfl, rfl, rfl, rfl⟩
  have hstopped : ∀ st, SameReaped s.tally (s.tally.stopped st) := by
    intro st
    unfold Tally.stopped
    split <;> exact ⟨rfl, rfl, rfl, rfl⟩
  cases h with
  | quiet => exact .inr ⟨hsame, rfl⟩
  | wake hl hy hb =>
    exact .inr ⟨⟨rfl, rfl, rfl, rfl⟩, hmove .ready Seat.ctx hy (by simp [hb]) _ hy⟩
  | join hl hx =>
    refine .inr ⟨hsame, ?_⟩
    simp [List.countP_append, hfresh _ hx.ready]
  | @switch q next x y st r r' hl hq hx hrun hst hne hy hready hctx =>
    refine .inr ⟨hstopped st, ?_⟩
    have hleft := hmove st (fun _ => .saved r) hx (by simp [hrun]) _ hx
    have hy' : (s.seats.modify q fun x => { x with state := st, ctx := .saved r })[next]? = some y := by
      simp [hne, hy]
    exact (hmove .running (fun _ => .loaded) hy (by simp [hready]) _ hy').trans hleft
  | @idle q x st r hl hq hx hrun hst hb =>
    exact .inr ⟨hstopped st, hmove st (fun _ => .saved r) hx (by simp [hrun]) _ hx⟩
  | start hl hcur hy hready hctx =>
    exact .inr ⟨hsame, hmove .running (fun _ => .loaded) hy (by simp [hready]) _ hy⟩
  | nothing => exact .inr ⟨hsame, rfl⟩
  | resume hr hcur =>
    obtain hrel | ⟨ht, hc⟩ := settle_count p s
    · exact .inl hrel
    · exact .inr ⟨ht ▸ hsame, hc⟩
  | @again next y r hr hcur hy hready hctx =>
    have hset := settle_seat (s := s.home) hy
    rw [if_neg (by simp [hready])] at hset
    have hloaded := hmove .running (fun _ => .loaded) hy (by simp [hready]) _ hset
    obtain ⟨i, x, hrel, hc⟩ | ⟨ht, hc⟩ := settle_count p s.home
    · exact .inl ⟨i, x, hrel, (congrArg (· + tick (p x)) hloaded).trans hc⟩
    · exact .inr ⟨show SameReaped s.tally s.home.settle.tally from ht ▸ hsame, hloaded.trans hc⟩
  | stop hr hcur =>
    obtain hrel | ⟨ht, hc⟩ := settle_count p s.home
    · exact .inl hrel
    · exact .inr ⟨ht ▸ hsame, hc⟩

/-- The counters count the dead seats that were released. -/
structure Counted (root : UInt64) (s : Stage) : Prop where
  stack : s.tally.reapedStacks = UInt64.ofNat (s.seats.countP stackless)
  words : s.tally.reapedWords = UInt64.ofNat (stackWords * s.seats.countP stackless)
  space : s.tally.reapedSpaces = UInt64.ofNat (s.seats.countP (spaceless root))

/-- The seat switched away from has not been released yet. -/
def Owed (root : UInt64) (s : Stage) : Prop :=
  ∀ (i : ℕ) (x : Seat), s.prev = some i → s.seats[i]? = some x →
    x.stack = stackWords ∧ (x.space = none → x.cr3 = root)

theorem Owed.step (ho : Owed root s) (hv : Valid root s) (h : Step s s') : Owed root s' := by
  intro i y hprev hy
  -- a seat that was running owed nothing, and the step that left it released nothing
  have hleft : s.current = some i → y.stack = stackWords ∧ (y.space = none → y.cr3 = root) := by
    intro hcur
    obtain ⟨x, hx, hrun⟩ := hv.seated i hcur
    have hlive : x.state ≠ .dead := by simp [hrun]
    have hkeep := And.intro (hv.stack i x hx hlive) (hv.thread i x hx hlive)
    obtain ⟨z, hz, hf⟩ := h.fate hx
    obtain rfl : z = y := Option.some.inj (hz.symm.trans hy)
    cases hf with
    | released hd => exact absurd hd hlive
    | _ => exact hkeep
  obtain ⟨-, hl, hsame, -⟩ | ⟨-, -, hnone, -⟩ | ⟨next, z, -, -, -, -, -, hne⟩ |
    ⟨p, -, hp, -, -, hcur, -⟩ := h.core
  · rw [hsame] at hprev
    obtain ⟨x, hx, hf⟩ | ⟨-, hl', -⟩ := h.origin hy
    · have hkeep := ho i x hprev hx
      cases hf with
      | released hd =>
        obtain rfl | ⟨hnone, -⟩ := h.settles (hv.prev i hprev).1 hx hprev hd
        · rw [Option.some.inj (hy.symm.trans hx)]
          exact hkeep
        · cases hnone.symm.trans (hsame.trans hprev)
      | _ => exact hkeep
    · have hloaded := (hv.prev i hprev).1
      rw [hl'] at hloaded
      cases hloaded
  · cases hnone.symm.trans hprev
  · exact hleft (hne i hprev).2
  · obtain rfl := Option.some.inj (hp.symm.trans hprev)
    exact hleft hcur

theorem Counted.stack_step (hc : Counted root s) (hv : Valid root s) (ho : Owed root s)
    (h : Step s s') :
    s'.tally.reapedStacks = UInt64.ofNat (s'.seats.countP stackless) ∧
      s'.tally.reapedWords = UInt64.ofNat (stackWords * s'.seats.countP stackless) := by
  have hready : ∀ x : Seat, x.state = .ready → stackless x = false := by
    intro x hx
    simp [stackless, hx]
  obtain ⟨i, x, ⟨hp, hx, hd, ht⟩, hcount⟩ | ⟨⟨hs, hw, -⟩, hcount⟩ := h.count hv.stackless hready
  · obtain ⟨hstack, -⟩ := ho i x hp hx
    have hne : x.stack ≠ 0 := by simp [hstack, stackWords]
    have hbefore : stackless x = false := by simp [stackless, hne]
    have hafter : stackless x.give = true := by simp [stackless, Seat.give, hd]
    rw [hbefore, hafter, tick_false, tick_true] at hcount
    rw [ht, show s'.seats.countP stackless = s.seats.countP stackless + 1 from hcount]
    constructor
    · rw [UInt64.ofNat_add, ← hc.stack]
      simp [Tally.reaped, hd, hne]
    · rw [Nat.mul_add, UInt64.ofNat_add, ← hc.words, Nat.mul_one, ← hstack]
      simp [Tally.reaped, hd, hne]
  · rw [hs, hw, hcount]
    exact ⟨hc.stack, hc.words⟩

theorem Counted.space_step (hc : Counted root s) (hv : Valid root s) (ho : Owed root s)
    (ha : Apart root s) (h : Step s s') :
    s'.tally.reapedSpaces = UInt64.ofNat (s'.seats.countP (spaceless root)) := by
  have hready : ∀ x : Seat, x.state = .ready → spaceless root x = false := by
    intro x hx
    simp [spaceless, hx]
  obtain ⟨i, x, ⟨hp, hx, hd, ht⟩, hcount⟩ | ⟨⟨-, -, hsp, -⟩, hcount⟩ := h.count hv.spaceless hready
  · rw [ht]
    cases hspace : x.space with
    | none =>
      have hroot := (ho i x hp hx).2 hspace
      have hbefore : spaceless root x = false := by simp [spaceless, hroot]
      have hafter : spaceless root x.give = false := by simp [spaceless, Seat.give, hroot]
      rw [hbefore, hafter, tick_false, Nat.add_zero, Nat.add_zero] at hcount
      rw [hcount, ← hc.space]
      simp [Tally.reaped, hd, hspace]
    | some p =>
      obtain ⟨r, f⟩ := p
      have hroot : x.cr3 ≠ root := by
        rw [hv.tree i x r f hx hspace]
        exact ha.kernel i x r f hx hspace
      have hbefore : spaceless root x = false := by simp [spaceless, hspace]
      have hafter : spaceless root x.give = true := by simp [spaceless, Seat.give, hd, hroot]
      rw [hbefore, hafter, tick_false, tick_true, Nat.add_zero] at hcount
      rw [hcount, UInt64.ofNat_add, ← hc.space]
      simp [Tally.reaped, hd, hspace]
  · rw [hsp, hcount]
    exact hc.space

/-- Everything that holds along a run whose spawns bring new trees. -/
structure Accounted (root : UInt64) (s : Stage) : Prop where
  valid : Valid root s
  owed : Owed root s
  apart : Apart root s
  counted : Counted root s

theorem Accounted.step (h : Accounted root s) (hstep : Step s s')
    (hnew : ∀ (i : ℕ) (y : Seat) (r f : UInt64), s.seats[i]? = none → s'.seats[i]? = some y →
      y.space = some (r, f) → r ≠ root ∧
        ∀ (j : ℕ) (x : Seat) (f' : UInt64), s.seats[j]? = some x → x.space ≠ some (r, f')) :
    Accounted root s' := by
  obtain ⟨hstack, hwords⟩ := h.counted.stack_step h.valid h.owed hstep
  exact ⟨h.valid.step hstep, h.owed.step h.valid hstep, h.apart.step hstep hnew,
    hstack, hwords, h.counted.space_step h.valid h.owed h.apart hstep⟩

end Stage

namespace Machine

variable {k k' : Machine} {root : UInt64} {i : ℕ} {x : Task}

/-- A task that was not there was spawned by this very act. -/
theorem Move.joined {l : Heap × Act} (hs : k.Sound) (hm : Move k l k') (hno : k.tasks[i]? = none)
    (hx : k'.tasks[i]? = some x) : ∃ stack grants, l.2 = .spawn stack x.space grants := by
  obtain ⟨heap, act⟩ := l
  have hout := outcome_of_step hs.coherent hs.queued hm.1 hm.2
  have hold : ∀ z, k.tasks[i]? ≠ some z := fun z hz => by
    rw [hno] at hz
    cases hz
  cases hout.table hs.coherent hx with
  | same z hz => exact absurd hz (hold z)
  | released z hz => exact absurd hz (hold z)
  | received z km hd frame h => exact absurd h.task (hold z)
  | granted grants hi hlog hcaps =>
    obtain ⟨evs, hevs, hall⟩ := hout.explained
    rw [hlog] at hevs
    obtain rfl : evs = [.spawned i grants] := by
      refine (List.append_left_injective k.log) ?_
      simpa using hevs.symm
    obtain ⟨-, stack, space, rfl⟩ := hall _ (List.mem_singleton.mpr rfl)
    refine ⟨stack, grants, ?_⟩
    have hk' : k.spawnUser heap stack space grants = k' := Except.ok.inj hm.2
    rw [← hk'] at hx
    unfold spawnUser at hx
    split at hx
    · exact absurd hx (hold x)
    · cases stack with
      | none => exact absurd hx (hold x)
      | some top =>
        have hi := List.getElem?_eq_none_iff.mp hno
        simp only [Option.isSome_some, if_true, spawnWith, record] at hx
        rw [List.getElem?_append_right hi] at hx
        obtain rfl := List.mem_singleton.mp (List.mem_of_getElem? hx)
        rfl

/-! ### Runs whose spawns bring new trees -/

/-- A spawn brings a tree nobody uses: `AddressSpace::new` takes its root from the frames
that are not outstanding, and the tree the core is in and every held space's are. -/
def NewTree (k : Machine) : Act → Prop
  | .spawn _ (some space) _ => space.root ≠ k.cpu.cr3 ∧
      ∀ t ∈ k.tasks, ∀ s, t.space = some s → s.root ≠ space.root
  | _ => True

abbrev FreshRun : Machine → Machine → Prop :=
  Library.Run (fun k l k' => Move k l k' ∧ NewTree k l.2) fun _ => True

theorem Move.accounted {l : Heap × Act} (hs : k.Sound) (ha : Stage.Accounted root k.stage)
    (hm : Move k l k') (hnew : NewTree k l.2) : Stage.Accounted root k'.stage := by
  refine ha.step (hm.staged hs.coherent hs.queued) fun i y r f hno hy hsp => ?_
  obtain ⟨x, hx, rfl⟩ := of_stage_seat hy
  have hno' : k.tasks[i]? = none := by simpa [stage] using hno
  obtain ⟨stack, grants, hact⟩ := hm.joined hs hno' hx
  obtain ⟨sp, hspace, hroot⟩ : ∃ sp, x.space = some sp ∧ (sp.root, sp.frames) = (r, f) := by
    simpa [Task.seat] using hsp
  obtain ⟨rfl, rfl⟩ := Prod.ext_iff.mp hroot
  rw [hact, hspace] at hnew
  obtain ⟨hcore, hheld⟩ := hnew
  have hfresh : k.stage.Fresh x.seat := by
    obtain ⟨z, hz, -⟩ | ⟨-, -, hfresh, -⟩ := (hm.staged hs.coherent hs.queued).origin hy
    · cases hno.symm.trans hz
    · exact hfresh
  refine ⟨?_, fun j z f' hz hzsp => ?_⟩
  · rw [← ha.valid.cr3_of_spawner hfresh]
    exact hcore
  · obtain ⟨t, ht, rfl⟩ := of_stage_seat hz
    obtain ⟨sp', hsp', hroot'⟩ : ∃ sp', t.space = some sp' ∧ (sp'.root, sp'.frames) = (sp.root, f') := by
      simpa [Task.seat] using hzsp
    exact hheld t (List.mem_of_getElem? ht) sp' hsp' (Prod.ext_iff.mp hroot').1

theorem init_accounted (root : UInt64) : Stage.Accounted root (init root).stage := by
  refine ⟨init_valid root, ?_, ⟨?_, ?_⟩, ⟨rfl, rfl, rfl⟩⟩
  · intro i x hp
    cases hp
  · intro i x r f hx
    simp [init, stage] at hx
  · intro i j x y r f f' hx
    simp [init, stage] at hx

theorem FreshRun.accounted (h : FreshRun (init root) k) :
    k.Sound ∧ Stage.Accounted root k.stage := by
  refine h.invariant (fun k => k.Sound ∧ Stage.Accounted root k.stage)
    ⟨init_sound root, init_accounted root⟩ ?_
  rintro k l k' ⟨hs, ha⟩ - ⟨hm, hnew⟩
  exact ⟨hs.move hm, hm.accounted hs ha hnew⟩

/-- Nothing but the loaded continuation runs while there is one. -/
theorem Enabled.unloaded {act : Act} (he : k.Enabled act) (hne : act ≠ .resume) :
    k.loaded = none := by
  cases act with
  | resume => exact absurd rfl hne
  | spawn => exact he.1
  | start => exact he.1
  | timer => exact he
  | syscall => exact he.1
  | send => exact he.1
  | recv => exact he.1
  | exit => exact he.1
  | store => exact he.1
  | create => exact he
  | revoke => exact he
  | arm => exact he

/-- A dead task that was just switched away from: the loaded continuation runs next,
releases what it holds, and counts it. -/
theorem Move.releases {l : Heap × Act} (hs : k.Sound) (hv : Stage.Valid root k.stage)
    (hp : k.prev = some i) (hx : k.tasks[i]? = some x) (hd : x.state = .dead) (hm : Move k l k') :
    l.2 = .resume ∧ k'.prev = none ∧ k'.stats.tally = k.stats.tally.reaped x.seat ∧
      ∃ y, k'.tasks[i]? = some y ∧ y.state = .dead ∧ y.stack = 0 ∧ y.space = none := by
  obtain ⟨heap, act⟩ := l
  have hl : k.loaded.isSome := (hv.prev i hp).1
  have hact : act = .resume := by
    by_contra hne
    rw [hm.1.unloaded hne] at hl
    cases hl
  subst hact
  have hnone := (resume_step hs.coherent hm.2).2
  refine ⟨rfl, hnone, ?_⟩
  obtain hsame | ⟨-, hseat, htally⟩ :=
    (hm.staged hs.coherent hs.queued).settles hl (stage_seat hx) hp hd
  · have hprev : k'.prev = k.prev := congrArg Stage.prev hsame
    rw [hnone, hp] at hprev
    cases hprev
  · obtain ⟨y, hy, hgive⟩ := of_stage_seat hseat
    refine ⟨htally, y, hy, (congrArg Seat.state hgive).trans hd, congrArg Seat.stack hgive, ?_⟩
    have hspace : y.space.map (fun s => (s.root, s.frames)) = none := congrArg Seat.space hgive
    simpa using hspace

/-- A dead task that was released holds nothing ever after. -/
theorem Run.released {S : Act → Prop} (h : Run S k k') (hs : k.Sound)
    (hv : Stage.Valid root k.stage) (hx : k.tasks[i]? = some x) (hd : x.state = .dead)
    (hp : k.prev ≠ some i) :
    ∃ y, k'.tasks[i]? = some y ∧ y.state = .dead ∧ y.stack = 0 ∧ y.space = none := by
  have hinv : k'.Sound ∧ Stage.Valid root k'.stage ∧ k'.prev ≠ some i ∧
      ∃ y, k'.tasks[i]? = some y ∧ y.state = .dead := by
    refine h.invariant (fun k => k.Sound ∧ Stage.Valid root k.stage ∧ k.prev ≠ some i ∧
      ∃ y, k.tasks[i]? = some y ∧ y.state = .dead) ⟨hs, hv, hp, x, hx, hd⟩ ?_
    rintro k l k' ⟨hs, hv, hp, y, hy, hd⟩ - hm
    have hstep := hm.staged hs.coherent hs.queued
    refine ⟨hs.move hm, hv.step hstep, ?_, hm.dead hs hy hd⟩
    -- only a running seat is left behind
    intro hp'
    have hrun : k.current ≠ some i := by
      intro hcur
      obtain ⟨z, hz, hrun⟩ := hv.seated i hcur
      obtain rfl := Option.some.inj ((stage_seat hy).symm.trans hz)
      cases hrun.symm.trans hd
    obtain ⟨-, -, hsame, -⟩ | ⟨-, -, hnone, -⟩ | ⟨next, z, -, -, -, -, -, hne⟩ |
      ⟨p, -, hprev, -, -, hcur, -⟩ := hstep.core
    · exact hp (hsame.symm.trans hp')
    · cases hnone.symm.trans hp'
    · exact hrun (hne i hp').2
    · obtain rfl := Option.some.inj (hprev.symm.trans hp')
      exact hrun hcur
  obtain ⟨-, hv', hp', y, hy, hd'⟩ := hinv
  have hno : ¬y.seat.Holds := fun hh => hp' (hv'.dead i y.seat (stage_seat hy) hd' hh)
  simp only [Seat.Holds, Task.seat, not_or, not_not] at hno
  exact ⟨y, hy, hd', hno.1, by simpa using hno.2⟩

/-- Reaping: of the dead, only the task in `PREV` still holds its stack or its space; the
very next act releases both, on another stack and in another tree, in which no live task
runs either; a released task never holds anything again, and the counters count each once. -/
theorem dead_tasks_released (h : FreshRun (init root) k) :
    (∀ (i : ℕ) (x : Task), k.tasks[i]? = some x → x.state = .dead →
      x.stack ≠ 0 ∨ x.space.isSome → k.prev = some i) ∧
    (∀ (i : ℕ) (x : Task), k.prev = some i → k.tasks[i]? = some x → x.state = .dead →
      x.stack = stackWords ∧ k.current ≠ some i ∧
      (∀ s, x.space = some s → k.cpu.cr3 ≠ s.root ∧
        (k.loaded = some .inStart → k.kernelRoot ≠ s.root) ∧
        ∀ (j : ℕ) (y : Task), k.tasks[j]? = some y → y.state ≠ .dead → y.cr3 ≠ s.root) ∧
      (∀ heap, ∃ k', Move k (heap, .resume) k') ∧
      ∀ (l : Heap × Act) (k' : Machine), Move k l k' → l.2 = .resume ∧ k'.prev = none ∧
        k'.stats.tally = k.stats.tally.reaped x.seat ∧
        ∃ y, k'.tasks[i]? = some y ∧ y.state = .dead ∧ y.stack = 0 ∧ y.space = none) ∧
    (∀ (i : ℕ) (x : Task), k.tasks[i]? = some x → x.state = .dead → k.prev ≠ some i →
      ∀ k', Run (fun _ => True) k k' →
        ∃ y, k'.tasks[i]? = some y ∧ y.state = .dead ∧ y.stack = 0 ∧ y.space = none) ∧
    k.stats.reapedStacks = UInt64.ofNat (k.tasks.countP fun t => t.state = .dead ∧ t.stack = 0) ∧
    k.stats.reapedSpaces = UInt64.ofNat
      (k.tasks.countP fun t => t.state = .dead ∧ t.space = none ∧ t.cr3 ≠ root) := by
  obtain ⟨hs, ha⟩ := h.accounted
  have hv := ha.valid
  refine ⟨?_, ?_, fun i x hx hd hp k' hrun => Run.released hrun hs hv hx hd hp, ?_, ?_⟩
  · intro i x hx hd hholds
    exact hv.dead i x.seat (stage_seat hx) hd (by simpa [Seat.Holds, Task.seat] using hholds)
  · intro i x hp hx hd
    refine ⟨(ha.owed i x.seat hp (stage_seat hx)).1, (hv.prev i hp).2, ?_, ?_,
      fun l k' hm => hm.releases hs hv hp hx hd⟩
    · intro sp hsp
      have hseat : x.seat.space = some (sp.root, sp.frames) := by simp [Task.seat, hsp]
      refine ⟨ha.apart.core_ne hv (stage_seat hx) hd hseat, fun hl => ?_,
        fun j y hy hlive => ha.apart.cr3_ne hv (stage_seat hx) hd hseat (stage_seat hy) hlive⟩
      obtain ⟨-, hcur⟩ | ⟨hof, -⟩ := hs.coherent.loaded _ hl
      · have hroot := hv.kernel (hv.away hcur (by show k.loaded.isSome; rw [hl]; rfl))
        rw [show k.kernelRoot = root from hroot]
        exact (ha.apart.kernel i x.seat sp.root sp.frames (stage_seat hx) hseat).symm
      · cases hof
    · intro heap
      have he : k.Enabled .resume := (hv.prev i hp).1
      obtain ⟨k', hk', -⟩ := step_outcome heap .resume hs.coherent hs.queued he
      exact ⟨k', he, hk'⟩
  · have hcount : k.stats.reapedStacks = UInt64.ofNat ((k.tasks.map Task.seat).countP Stage.stackless) :=
      ha.counted.stack
    rw [hcount, List.countP_map]
    rfl
  · have hcount : k.stats.reapedSpaces =
        UInt64.ofNat ((k.tasks.map Task.seat).countP (Stage.spaceless root)) := ha.counted.space
    rw [hcount, List.countP_map]
    congr 2
    funext t
    simp [Stage.spaceless, Task.seat]

/-- A ring-3 task exits with a kernel thread ready to run. -/
def departing : List Act :=
  [.spawn (some 0x9000) (some ⟨0x5000, 0x400000, fun _ _ _ => false, fun _ => 0, 7⟩) [],
    .spawn (some 0xA000) none [], .start, .resume, .syscall ⟨4, 0, 0, 0⟩]

/-- One more act of such a run. -/
theorem fresh_snoc (acts : List Act) (act : Act) (h : FreshRun (init 0) (after acts))
    (hp : (perform ⟨8, by decide⟩ (acts ++ [act]) (init 0)).isSome)
    (hnew : NewTree (after acts) act) : FreshRun (init 0) (after (acts ++ [act])) :=
  h.tail (a := (⟨8, by decide⟩, act)) trivial ⟨step_after acts act hp, hnew⟩

theorem departing_fresh : FreshRun (init 0) (after departing) := by
  have h₁ : FreshRun (init 0) (after (departing.take 1)) :=
    fresh_snoc (departing.take 0) _ .refl (by decide) ⟨by decide, fun t ht => by cases ht⟩
  have h₂ : FreshRun (init 0) (after (departing.take 2)) :=
    fresh_snoc (departing.take 1) (.spawn (some 0xA000) none []) h₁ (by decide) trivial
  have h₃ : FreshRun (init 0) (after (departing.take 3)) :=
    fresh_snoc (departing.take 2) .start h₂ (by decide) trivial
  have h₄ : FreshRun (init 0) (after (departing.take 4)) :=
    fresh_snoc (departing.take 3) .resume h₃ (by decide) trivial
  exact fresh_snoc (departing.take 4) (.syscall ⟨4, 0, 0, 0⟩) h₄ (by decide) trivial

/-- The thread that runs next is in the kernel's tree, not in the dead task's, and its
first act releases that. -/
theorem dead_tasks_released_departing : (after departing).cpu.cr3 ≠ 0x5000 ∧
    ∃ k', Move (after departing) (⟨8, by decide⟩, .resume) k' ∧ k'.prev = none ∧
      k'.stats.reapedFrames = 7 := by
  obtain ⟨-, hprev, -⟩ := dead_tasks_released departing_fresh
  obtain ⟨-, -, hspace, hnext, hall⟩ := hprev 0 _ rfl rfl rfl
  obtain ⟨k', hm⟩ := hnext ⟨8, by decide⟩
  obtain ⟨-, hnone, htally, -⟩ := hall _ k' hm
  exact ⟨(hspace _ rfl).1, k', hm, hnone, (congrArg Tally.reapedFrames htally).trans (by decide +kernel)⟩

end Machine

end StarOs.Kernel
