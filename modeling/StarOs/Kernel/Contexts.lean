import StarOs.Kernel.Tenure

/-! The scheduler over whole runs: one task runs or none, a switch is between two
contexts, and a stopped task keeps the one it left. -/

namespace StarOs.Kernel

open Library

namespace Machine

variable {S : Act → Prop} {k k' : Machine} {root : UInt64} {i : ℕ} {x : Task} {r : Resume}

/-! ### Saved contexts -/

/-- Task `i` is not the current one, and its saved context is `r`. -/
def AtRest (i : ℕ) (r : Resume) (k : Machine) : Prop :=
  k.current ≠ some i ∧ ∃ x, k.tasks[i]? = some x ∧ x.ctx = .saved r

/-- Runs throughout which task `i` stays at rest. -/
abbrev Resting (i : ℕ) (r : Resume) : Machine → Machine → Prop :=
  Library.Run (fun k l k' => AtRest i r k ∧ Move k l k' ∧ AtRest i r k') fun _ => True

/-- Where the context of a task at rest comes from: it was planted when the task was
spawned, or saved when the task was last switched away from; it has not been loaded since. -/
inductive Kept (root : UInt64) (i : ℕ) (k : Machine) : Resume → Prop
  | planted {k₁ k₂ : Machine} {l : Heap × Act} (hrun : Run (fun _ => True) (init root) k₁)
      (hm : Move k₁ l k₂) (hnew : k₁.tasks[i]? = none) (h₂ : AtRest i .trampoline k₂)
      (hrest : Resting i .trampoline k₂ k) : Kept root i k .trampoline
  | left {k₁ k₂ : Machine} {l : Heap × Act} {r : Resume}
      (hrun : Run (fun _ => True) (init root) k₁) (hm : Move k₁ l k₂)
      (hcur : k₁.current = some i) (h₂ : AtRest i r k₂) (hrest : Resting i r k₂ k) : Kept root i k r

theorem Kept.later {l : Heap × Act} (h : Kept root i k r) (hat : AtRest i r k) (hm : Move k l k')
    (hat' : AtRest i r k') : Kept root i k' r := by
  cases h with
  | planted hrun hm₁ hnew h₂ hrest =>
    exact .planted hrun hm₁ hnew h₂ (hrest.tail trivial ⟨hat, hm, hat'⟩)
  | left hrun hm₁ hcur h₂ hrest => exact .left hrun hm₁ hcur h₂ (hrest.tail trivial ⟨hat, hm, hat'⟩)

/-- Every task that is alive and not current is at rest, in a context of its own. -/
def AllKept (root : UInt64) (k : Machine) : Prop :=
  ∀ (i : ℕ) (x : Task), k.tasks[i]? = some x → x.state ≠ .dead → k.current ≠ some i →
    ∃ r, AtRest i r k ∧ Kept root i k r

theorem AllKept.move {l : Heap × Act} (h : AllKept root k) (hs : k.Sound)
    (hrun : Run (fun _ => True) (init root) k) (hm : Move k l k') : AllKept root k' := by
  intro i y hy hlive hcur'
  have hstep := hm.staged hs.coherent hs.queued
  have hs' := hs.move hm
  have hstopped : y.state ≠ .running :=
    fun hr => hcur' ((hs'.coherent.running i y hy).mp hr)
  have hat : ∀ r, y.ctx = .saved r → AtRest i r k' := fun r hr => ⟨hcur', y, hy, hr⟩
  obtain ⟨z, hz, hf⟩ | ⟨hnew, -, hfresh, -⟩ := hstep.origin (stage_seat hy)
  · obtain ⟨x, hx, rfl⟩ := of_stage_seat hz
    -- a task whose context is what it was, and that was not current, rests on
    have hrest : y.ctx = x.ctx → x.state ≠ .dead → x.state ≠ .running →
        ∃ r, AtRest i r k' ∧ Kept root i k' r := by
      intro hctx hlive hstopped
      have hcur : k.current ≠ some i := fun hc => hstopped ((hs.coherent.running i x hx).mpr hc)
      obtain ⟨r, hr, hkept⟩ := h i x hx hlive hcur
      obtain ⟨x', hx', hctx'⟩ := hr.2
      obtain rfl : x = x' := Option.some.inj (hx.symm.trans hx')
      have hr' := hat r (hctx.trans hctx')
      exact ⟨r, hr', hkept.later hr hm hr'⟩
    generalize hseat : y.seat = s at hf
    have hctx : y.ctx = s.ctx := congrArg Seat.ctx hseat
    have hst : y.state = s.state := congrArg Seat.state hseat
    cases hf with
    | kept => exact hrest hctx (fun hd => hlive (hst.trans hd)) (fun hr => hstopped (hst.trans hr))
    | woken hb =>
      have hb : x.state = .blocked := hb
      exact hrest hctx (by simp [hb]) (by simp [hb])
    | @left st r hl hcur hrun' hst' hcur'' hprev =>
      exact ⟨r, hat r hctx, .left hrun hm hcur (hat r hctx) .refl⟩
    | entered hready hcur'' => exact absurd hcur'' hcur'
    | released hd => exact absurd (hst.trans hd) hlive
  · have hno : k.tasks[i]? = none := by simpa [stage] using hnew
    have hctx : y.ctx = .saved .trampoline := hfresh.ctx
    exact ⟨_, hat _ hctx, .planted hrun hm hno (hat _ hctx) .refl⟩

theorem Run.allKept (h : Run (fun _ => True) (init root) k) : AllKept root k := by
  induction h with
  | refl =>
    intro i x hx
    simp [init] at hx
  | tail hrun _ hm ih => exact ih.move (Run.valid (S := fun _ => True) hrun).1 hrun hm

/-! ### Picking the next task -/

/-- The states of the tasks, which is what `pick_next` looks at. -/
def states (k : Machine) : List State := k.tasks.map Task.state

/-- The machine `pick_next` is asked on, at each of its call sites while `p` runs: in
`reschedule` as it is, in `park_and_switch` and in `exit` with `p` marked. -/
inductive PickSite (k : Machine) (p : ℕ) (q : Machine) : Prop
  | reschedule (h : q.states = k.states)
  | park (h : q.states = k.states.set p .blocked)
  | exit (h : q.states = k.states.set p .dead)

/-- A task that is not ready is not picked. -/
theorem pickNext_ne {q : Machine} {p : ℕ} (st : State) (hst : q.states[p]? = some st)
    (hnr : st ≠ .ready) : q.pickNext p ≠ some p := by
  intro hpick
  obtain ⟨t, ht, hready⟩ := pickNext_some hpick
  simp only [states, List.getElem?_map, ht, Option.map_some, Option.some.injEq] at hst
  exact hnr (hst ▸ hready)

theorem pickNext_ne_self {q : Machine} {p : ℕ} (hc : k.Coherent) (hp : k.current = some p)
    (h : PickSite k p q) : q.pickNext p ≠ some p := by
  obtain ⟨x, hx, hrun⟩ := hc.current_seat hp
  have hlen : p < k.states.length := by simpa [states] using lt_of_getElem? hx
  cases h with
  | reschedule h =>
    refine pickNext_ne .running ?_ (by simp)
    rw [h]
    simp [states, hx, hrun]
  | park h =>
    refine pickNext_ne .blocked ?_ (by simp)
    rw [h, List.getElem?_set_self hlen]
  | exit h =>
    refine pickNext_ne .dead ?_ (by simp)
    rw [h, List.getElem?_set_self hlen]

theorem Move.dead {l : Heap × Act} (hs : k.Sound) (hm : Move k l k') (hx : k.tasks[i]? = some x)
    (hd : x.state = .dead) : ∃ x', k'.tasks[i]? = some x' ∧ x'.state = .dead := by
  obtain ⟨y, hy, hf⟩ := (hm.staged hs.coherent hs.queued).fate (stage_seat hx)
  obtain ⟨x', hx', hseat⟩ := of_stage_seat hy
  refine ⟨x', hx', (congrArg Seat.state hseat).trans ?_⟩
  have hd : x.seat.state = .dead := hd
  cases hf with
  | kept => exact hd
  | woken hb => cases hd.symm.trans hb
  | left _ _ hrun => cases hd.symm.trans hrun
  | entered hready => cases hd.symm.trans hready
  | released => exact hd

/-- The scheduler is coherent: one task runs or none does, the dead stay dead, a switch
names two contexts, and whoever does not run keeps the context it stopped in. -/
theorem scheduler_coherent (h : Run (fun _ => True) (init root) k) :
    ((k.current = none ∧ ∀ (i : ℕ) (x : Task), k.tasks[i]? = some x → x.state ≠ .running) ∨
      ∃ t, k.current = some t ∧
        ∀ (i : ℕ) (x : Task), k.tasks[i]? = some x → (x.state = .running ↔ i = t)) ∧
    (∀ (i : ℕ) (x : Task) (l : Heap × Act) (k' : Machine), k.tasks[i]? = some x →
      x.state = .dead → Move k l k' → ∃ x', k'.tasks[i]? = some x' ∧ x'.state = .dead) ∧
    (∀ (p : ℕ) (q : Machine), k.current = some p → PickSite k p q → q.pickNext p ≠ some p) ∧
    (∀ p, k.prev = some p → k.current ≠ some p) ∧
    ∀ (i : ℕ) (x : Task), k.tasks[i]? = some x → x.state ≠ .dead → k.current ≠ some i →
      ∃ r, x.ctx = .saved r ∧ Kept root i k r := by
  obtain ⟨hs, hv⟩ := Run.valid h
  refine ⟨?_, fun i x l k' hx hd hm => hm.dead hs hx hd,
    fun p q hp hq => pickNext_ne_self hs.coherent hp hq, fun p hp => (hv.prev p hp).2, ?_⟩
  · cases hcur : k.current with
    | none =>
      refine .inl ⟨rfl, fun i x hx hrun => ?_⟩
      cases hcur.symm.trans ((hs.coherent.running i x hx).mp hrun)
    | some t =>
      refine .inr ⟨t, rfl, fun i x hx => ?_⟩
      rw [hs.coherent.running i x hx, hcur, Option.some.injEq]
      exact eq_comm
  · intro i x hx hlive hcur
    obtain ⟨r, hr, hkept⟩ := Run.allKept h i x hx hlive hcur
    obtain ⟨x', hx', hctx⟩ := hr.2
    obtain rfl := Option.some.inj (hx.symm.trans hx')
    exact ⟨r, hctx, hkept⟩

/-- While the second thread runs, the first keeps the context it parked in. -/
theorem scheduler_coherent_turns :
    Kept 0 0 (after (turns.take 6)) (.recvParked replyEp .thread) ∧
      (after (turns.take 6)).pickNext 1 ≠ some 1 := by
  obtain ⟨-, -, hpick, -, hkept⟩ :=
    scheduler_coherent (run_after (by decide) fun _ _ => trivial :
      Run (fun _ => True) (init 0) (after (turns.take 6)))
  obtain ⟨r, hr, hk⟩ := hkept 0 _ rfl (by decide) (by decide)
  have hr : Context.saved (.recvParked replyEp .thread) = Context.saved r := hr
  obtain rfl := Context.saved.inj hr
  exact ⟨hk, hpick 1 _ rfl (.reschedule rfl)⟩

end Machine

end StarOs.Kernel
