import StarOs.Kernel.Stage
import StarOs.Kernel.Steps

/-! The machine refines the stage: whatever an act does, the scheduler sees one of
its own steps. Partial correctness is enough here, so each function is read
backwards from the machine it returned. -/

namespace StarOs.Kernel

open Library

theorem bind_eq_ok {α β : Type} {x : Except Panic α} {f : α → Except Panic β} {b : β}
    (h : (x >>= f) = .ok b) : ∃ a, x = .ok a ∧ f a = .ok b := by
  cases x with
  | error e => cases h
  | ok a => exact ⟨a, rfl, h⟩

def Stage.swapGs (s : Stage) : Stage :=
  { s with cpu := { s.cpu with gsOrdinary := !s.cpu.gsOrdinary } }

@[simp] theorem Stage.swapGs_swapGs (s : Stage) : s.swapGs.swapGs = s := by
  simp [Stage.swapGs]

namespace Machine

variable {k k' : Machine} {i p t : ℕ} {x : Task}

/-! ### What is not seen -/

theorem task_ok (h : k.task i = .ok x) : k.tasks[i]? = some x := by
  unfold task at h
  split at h
  · rename_i t ht
    rw [ht, Except.ok.inj h]
  · cases h

theorem onTask_ok {f : Task → Task} (h : k.onTask i f = .ok k') :
    i < k.tasks.length ∧ k' = { k with tasks := k.tasks.modify i f } := by
  unfold onTask at h
  split at h
  · exact ⟨‹_›, (Except.ok.inj h).symm⟩
  · cases h

theorem currentId_ok (h : k.currentId = .ok t) : k.current = some t := by
  unfold currentId at h
  split at h
  · rw [‹k.current = _›, Except.ok.inj h]
  · cases h

theorem map_modify_at {β : Type} {g : Task → β} {f : Task → Task} {l : List Task}
    (hx : l[i]? = some x) (hf : g (f x) = g x) : (l.modify i f).map g = l.map g := by
  apply List.ext_getElem?
  intro n
  rw [List.getElem?_map, List.getElem?_modify, List.getElem?_map]
  by_cases hn : i = n
  · subst hn
    simp [hx, hf]
  · simp [hn]

theorem onTask_stage {f : Task → Task} (h : k.onTask i f = .ok k')
    (hf : ∀ y, k.tasks[i]? = some y → (f y).seat = y.seat) : k'.stage = k.stage := by
  obtain ⟨hi, rfl⟩ := onTask_ok h
  have hy := List.getElem?_eq_getElem hi
  simp only [stage, map_modify_at hy (hf _ hy)]

theorem stage_modify (k : Machine) {f : Task → Task} (h : ∀ t, (f t).seat = t.seat) (i : ℕ) :
    ({ k with tasks := k.tasks.modify i f } : Machine).stage = k.stage := by
  simp only [stage, map_modify_of_eq k.tasks i h]

/-- A rewrite of one task that keeps its seat and its mailbox is not seen. -/
theorem onTask_seen {f : Task → Task} (h : k.onTask i f = .ok k')
    (hf : ∀ y, k.tasks[i]? = some y → (f y).seat = y.seat ∧ (f y).mailbox = y.mailbox) :
    k'.seen = k.seen := by
  have hstage := onTask_stage h fun y hy => (hf y hy).1
  obtain ⟨hi, rfl⟩ := onTask_ok h
  have hy := List.getElem?_eq_getElem hi
  refine Prod.ext hstage ?_
  simp only [seen, wire, map_modify_at hy (hf _ hy).2]

theorem sysret_seen {frame : Frame} {corrupt : Bool} {rc : Rc}
    (h : k.sysret frame corrupt rc = .ok k') : k'.seen = k.swapGs.seen := by
  obtain ⟨me, -, h⟩ := bind_eq_ok h
  obtain rfl := Except.ok.inj h
  rfl

/-- Behind the handler's `swap_gs`, the way out undoes it. -/
theorem swapped_sysret_seen {frame : Frame} {corrupt : Bool} {rc : Rc}
    (h : k.swapGs.sysret frame corrupt rc = .ok k') : k'.seen = k.seen := by
  rw [sysret_seen h]
  exact Prod.ext (Stage.swapGs_swapGs k.stage) rfl

theorem returnSend_seen {caller : Caller} {result : Except KError Unit}
    (h : k.returnSend caller result = .ok k') : k'.seen = k.seen := by
  obtain ⟨me, -, h⟩ := bind_eq_ok h
  cases caller with
  | thread =>
    obtain rfl := Except.ok.inj h
    rfl
  | ring3 frame corrupt via => exact (swapped_sysret_seen h :)

theorem writeUserMsg_seen {ptr : UInt64} {msg : Message}
    (h : k.writeUserMsg ptr msg = .ok (some k')) : k'.seen = k.seen := by
  unfold writeUserMsg at h
  split at h
  · cases h
  · obtain ⟨space, hspace, h⟩ := bind_eq_ok h
    cases space with
    | none => cases h
    | some s =>
      dsimp only at h
      split at h
      · cases h
      · obtain ⟨me, hme, h⟩ := bind_eq_ok h
        obtain ⟨k₁, hk₁, h⟩ := bind_eq_ok h
        obtain rfl := Option.some.inj (Except.ok.inj h)
        refine onTask_seen hk₁ fun y hy => ⟨?_, rfl⟩
        have hcur := currentId_ok hme
        rw [currentSpace_eq hcur hy] at hspace
        simp [Task.seat, Except.ok.inj hspace]

theorem installCapCurrent_seen {heap : Heap} {cap : Cap} {hd : Option UInt32}
    (h : k.installCapCurrent heap cap = .ok (hd, k')) : k'.seen = k.seen := by
  unfold installCapCurrent at h
  split at h
  · obtain ⟨-, rfl⟩ := Prod.ext_iff.mp (Except.ok.inj h)
    rfl
  · obtain ⟨y, -, h⟩ := bind_eq_ok h
    split at h
    · obtain ⟨-, rfl⟩ := Prod.ext_iff.mp (Except.ok.inj h)
      rfl
    · obtain ⟨k₁, hk₁, h⟩ := bind_eq_ok h
      obtain ⟨-, rfl⟩ := Prod.ext_iff.mp (Except.ok.inj h)
      exact onTask_seen hk₁ fun _ _ => ⟨rfl, rfl⟩

theorem writeOut_seen {ptr : UInt64} {km : KMessage} {rc : Rc} (hd : Option UInt32)
    (h : (match hd with
      | none => .ok (.error .outOfResources, k)
      | some h => do
        match ← k.writeUserMsg ptr { km.msg with cap := h } with
        | some k => .ok (.ok 0, k)
        | none => .ok (.error .invalidArgument, k) : Except Panic (Rc × Machine)) = .ok (rc, k')) :
    k'.seen = k.seen := by
  cases hd with
  | none =>
    obtain ⟨-, rfl⟩ := Prod.ext_iff.mp (Except.ok.inj h)
    rfl
  | some hd =>
    obtain ⟨o, ho, h⟩ := bind_eq_ok h
    cases o with
    | none =>
      obtain ⟨-, rfl⟩ := Prod.ext_iff.mp (Except.ok.inj h)
      rfl
    | some k₂ =>
      obtain ⟨-, rfl⟩ := Prod.ext_iff.mp (Except.ok.inj h)
      exact writeUserMsg_seen ho

theorem finishRecv_seen {heap : Heap} {ptr : UInt64} {km : KMessage} {rc : Rc}
    (h : k.finishRecv heap ptr km = .ok (rc, k')) : k'.seen = k.seen := by
  unfold finishRecv at h
  split at h
  · obtain ⟨⟨hd, k₁⟩, hc, h⟩ := bind_eq_ok h
    rw [← installCapCurrent_seen hc]
    exact writeOut_seen hd h
  · exact writeOut_seen (some 0) h

theorem returnRecv_seen {heap : Heap} {caller : Caller} {result : Except KError KMessage}
    (h : k.returnRecv heap caller result = .ok k') : k'.seen = k.seen := by
  obtain ⟨me, -, h⟩ := bind_eq_ok h
  cases caller with
  | thread =>
    obtain rfl := Except.ok.inj h
    rfl
  | ring3 frame corrupt via =>
    cases result with
    | ok km =>
      obtain ⟨⟨rc, k₁⟩, hfin, h⟩ := bind_eq_ok h
      rw [swapped_sysret_seen h, finishRecv_seen hfin]
      rfl
    | error e => exact (swapped_sysret_seen h :)

theorem takeMailbox_ok {km : KMessage} (h : k.takeMailbox = .ok (km, k')) :
    ∃ me y, k.current = some me ∧ k.tasks[me]? = some y ∧ y.mailbox = some km ∧
      k' = { k with tasks := k.tasks.modify me fun t => { t with mailbox := none } } := by
  obtain ⟨me, hme, h⟩ := bind_eq_ok h
  obtain ⟨y, hy, h⟩ := bind_eq_ok h
  split at h
  · cases h
  · rename_i m hm
    obtain ⟨k₁, hk₁, h⟩ := bind_eq_ok h
    obtain ⟨rfl, rfl⟩ := Prod.ext_iff.mp (Except.ok.inj h)
    exact ⟨me, y, currentId_ok hme, task_ok hy, hm, (onTask_ok hk₁).2⟩

/-! ### Switching -/

theorem stage_seat (hx : k.tasks[i]? = some x) : k.stage.seats[i]? = some x.seat := by
  simp [stage, hx]

theorem of_stage_seat {y : Seat} (hy : k.stage.seats[i]? = some y) :
    ∃ t, k.tasks[i]? = some t ∧ t.seat = y := by
  simpa [stage] using hy

theorem map_seat_modify {f : Task → Task} {g : Seat → Seat} (h : ∀ t, (f t).seat = g t.seat)
    (l : List Task) (i : ℕ) : (l.modify i f).map Task.seat = (l.map Task.seat).modify i g := by
  apply List.ext_getElem?
  intro n
  by_cases hn : i = n
  · subst hn
    cases hl : l[i]? <;> simp [hl, h]
  · simp [hn]

theorem stage_entered (prev : Option ℕ) (next : ℕ) (y : Task) (r : Resume) :
    (k.entered prev next y r).stage = k.stage.enter prev next y.seat r := by
  simp only [stage, Machine.entered, Stage.enter]
  rw [map_seat_modify (g := fun x => { x with state := .running, ctx := .loaded }) fun _ => rfl]
  rfl

theorem stage_idled (p : ℕ) : (k.idled p .inStart).stage = k.stage.idle p := rfl

theorem stage_saved (p : ℕ) (r : Resume) : (k.saved (some p) r).stage =
    { k.stage with seats := k.stage.seats.modify p fun x => { x with ctx := .saved r } } := by
  simp only [stage, Machine.saved]
  rw [map_seat_modify (g := fun x => { x with ctx := .saved r }) fun _ => rfl]

/-- A ready seat of a coherent machine has a continuation to resume. -/
theorem Coherent.ready_seat (hc : k.Coherent) {y : Seat} (hy : k.stage.seats[i]? = some y)
    (hr : y.state = .ready) : ∃ r, y.ctx = .saved r := by
  obtain ⟨t, ht, rfl⟩ := of_stage_seat hy
  have hok := hc.ok i t ht
  rw [Task.Ok, show t.state = .ready from hr] at hok
  obtain ⟨r, hctx, -⟩ := hok
  exact ⟨r, hctx⟩

theorem Coherent.current_seat (hc : k.Coherent) (hp : k.current = some p) :
    ∃ x, k.tasks[p]? = some x ∧ x.state = .running := by
  have hx := List.getElem?_eq_getElem (hc.current p hp)
  exact ⟨_, hx, (hc.running p _ hx).mpr hp⟩

/-- The stage once the current seat is marked as stopped in state `st`. -/
def stopped (p : ℕ) (st : State) (s : Stage) : Stage :=
  { s with
    seats := s.seats.modify p fun x => { x with state := st }
    tally := s.tally.stopped st }

theorem leave_eq (p : ℕ) (st : State) (r : Resume) (s : Stage) : s.leave p st r =
    { stopped p st s with
      seats := (stopped p st s).seats.modify p fun x => { x with ctx := .saved r } } := by
  simp only [Stage.leave, stopped, List.modify_modify_eq]
  rfl

theorem wire_modify (k : Machine) {f : Task → Task} (h : ∀ t, (f t).mailbox = t.mailbox) (i : ℕ) :
    ({ k with tasks := k.tasks.modify i f } : Machine).wire = k.wire := by
  simp only [wire, map_modify_of_eq k.tasks i h]

theorem wire_saved (p : ℕ) (r : Resume) : (k.saved (some p) r).wire = k.wire :=
  wire_modify k (f := fun t => { t with ctx := .saved r }) (fun _ => rfl) p

theorem wire_entered (prev : Option ℕ) (next : ℕ) (y : Task) (r : Resume) :
    (k.entered prev next y r).wire = k.wire :=
  wire_modify k (f := fun t => { t with state := .running, ctx := .loaded }) (fun _ => rfl) next

/-- The current task `p` of `k` was switched away from, by way of `k₁`. -/
structure Leaves (k k₁ k' : Machine) (p : ℕ) (st : State) (r : Resume) : Prop where
  current : k.current = some p
  away : Stage.Away k.stage p st r k'.stage
  wire : k'.wire = k₁.wire

theorem Leaves.step {k₁ : Machine} {st : State} {r : Resume} (h : Leaves k k₁ k' p st r)
    (hc : k.Coherent) (hl : k.loaded = none) (hst : st ≠ .running) :
    Stage.Step k.stage k'.stage := by
  obtain ⟨x, hx, hrun⟩ := hc.current_seat h.current
  exact h.away.step hl h.current (stage_seat hx) hrun hst

/-- From the current task, marked as stopped, to another one that is ready. -/
theorem dispatch_leaves (st : State) {k₁ : Machine} {r : Resume} {next : ℕ} {y : Task}
    (hc : k.Coherent) (hp : k.current = some p) (h₁ : k₁.stage = stopped p st k.stage)
    (hne : p ≠ next) (hy : k₁.tasks[next]? = some y) (hready : y.state = .ready)
    (h : k₁.dispatch (some p) r next = .ok k') : Leaves k k₁ k' p st r := by
  obtain ⟨x, hx, -⟩ := hc.current_seat hp
  have hy₀ : k.stage.seats[next]? = some y.seat := by
    have := stage_seat hy
    rw [h₁] at this
    simpa [stopped, hne] using this
  obtain ⟨r', hctx⟩ := hc.ready_seat hy₀ hready
  have hlen : p < k₁.tasks.length := by
    have hseats := congrArg (fun s : Stage => s.seats.length) h₁
    simp only [stage, stopped, List.length_map, List.length_modify] at hseats
    exact hseats ▸ lt_of_getElem? hx
  have hprev : ∀ i, some p = some i → i < k₁.tasks.length ∧ i ≠ next := by
    intro i hi
    obtain rfl := Option.some.inj hi
    exact ⟨hlen, hne⟩
  rw [dispatch_eq hprev hy hctx] at h
  obtain rfl := Except.ok.inj h
  refine ⟨hp, ?_, by rw [wire_entered, wire_saved]⟩
  rw [stage_entered, stage_saved, h₁, ← leave_eq]
  exact .switch hne hy₀ hready hctx

/-- The switch that cannot decline. -/
theorem switchAway_leaves (st : State) {k₁ : Machine} {r : Resume} (hc : k.Coherent)
    (hp : k.current = some p) (hnr : st ≠ .ready) (h₁ : k₁.stage = stopped p st k.stage)
    (h : k₁.switchAway p r = .ok k') : Leaves k k₁ k' p st r := by
  obtain ⟨x, hx, -⟩ := hc.current_seat hp
  have hseat : k₁.stage.seats[p]? = some { x.seat with state := st } := by
    rw [h₁]
    simp [stopped, stage_seat hx]
  obtain ⟨x₁, hx₁, hx₁s⟩ := of_stage_seat hseat
  unfold switchAway at h
  cases hpick : k₁.pickNext p with
  | some next =>
    obtain ⟨y, hy, hready⟩ := pickNext_some hpick
    have hne : p ≠ next := by
      intro hpn
      rw [← hpn, hx₁] at hy
      obtain rfl := Option.some.inj hy
      exact hnr ((congrArg Seat.state hx₁s).symm.trans hready)
    rw [hpick] at h
    exact dispatch_leaves st hc hp h₁ hne hy hready h
  | none =>
    rw [hpick] at h
    have hboot : k.bootstrap = .saved .inStart := hc.bootstrap (by rw [hp]; rfl)
    have hb : k₁.bootstrap = .saved .inStart := (congrArg Stage.bootstrap h₁).trans hboot
    rw [toBootstrap_eq (lt_of_getElem? hx₁) hb] at h
    obtain rfl := Except.ok.inj h
    refine ⟨hp, ?_, (wire_saved (k := k₁) p r :)⟩
    rw [stage_idled, stage_saved, h₁, ← leave_eq]
    exact .idle hboot

/-! ### The calls -/

theorem parkAndSwitch_leaves {r : Resume} (hc : k.Coherent) (h : k.parkAndSwitch r = .ok k') :
    ∃ p, Leaves k k k' p .blocked r := by
  unfold parkAndSwitch at h
  cases hp : k.current with
  | none =>
    rw [hp] at h
    cases h
  | some p =>
    rw [hp] at h
    obtain ⟨k₁, hk₁, h⟩ := bind_eq_ok h
    obtain ⟨-, rfl⟩ := onTask_ok hk₁
    have hleave := switchAway_leaves .blocked hc hp (by simp) ?_ h
    · exact ⟨p, hp, hleave.away, hleave.wire.trans
        (wire_modify k (f := fun t => { t with state := .blocked }) (fun _ => rfl) p)⟩
    · simp only [stage, count, stopped]
      rw [map_seat_modify (g := fun x => { x with state := .blocked }) fun _ => rfl]
      rfl

theorem reschedule_leaves {r : Resume} (hc : k.Coherent) (h : k.reschedule r = .ok (some k')) :
    ∃ p, Leaves k k k' p .ready r := by
  unfold reschedule at h
  cases hp : k.current with
  | none =>
    rw [hp] at h
    cases h
  | some p =>
    rw [hp] at h
    dsimp only at h
    obtain ⟨x, hx, hrun⟩ := hc.current_seat hp
    cases hpick : k.pickNext p with
    | none =>
      rw [hpick] at h
      cases h
    | some next =>
      rw [hpick] at h
      obtain ⟨k₁, hk₁, h⟩ := bind_eq_ok h
      obtain ⟨k₂, hk₂, h⟩ := bind_eq_ok h
      obtain rfl := Option.some.inj (Except.ok.inj h)
      obtain ⟨-, rfl⟩ := onTask_ok hk₁
      obtain ⟨y, hy, hready⟩ := pickNext_some hpick
      have hne : p ≠ next := by
        intro hpn
        rw [← hpn, hx] at hy
        rw [Option.some.inj hy, hready] at hrun
        cases hrun
      have hmark : (k.tasks.modify p fun t => if t.state = .running then { t with state := .ready } else t) =
          k.tasks.modify p fun t => { t with state := .ready } :=
        modify_congr hx (by rw [if_pos hrun])
      rw [hmark] at hk₂
      have hleave := dispatch_leaves .ready hc hp ?_ hne (by simpa [hne] using hy) hready hk₂
      · exact ⟨p, hp, hleave.away, hleave.wire.trans
          (wire_modify k (f := fun t => { t with state := .ready }) (fun _ => rfl) p)⟩
      · simp only [stage, stopped]
        rw [map_seat_modify (g := fun x => { x with state := .ready }) fun _ => rfl]
        rfl

theorem exit_leaves (hc : k.Coherent) (hq : k.net.Queued ringCap) (hl : k.loaded = none)
    (h : k.exit = .ok k') : ∃ p, Leaves k k k' p .dead .exited := by
  obtain ⟨p, hp, h⟩ := bind_eq_ok h
  have hp := currentId_ok hp
  obtain ⟨x, hx, hrun, -, hfree⟩ := hc.current_task hp hl
  rw [forgetTask_of_free hq hfree] at h
  obtain ⟨k₁, hk₁, h⟩ := bind_eq_ok h
  obtain ⟨-, rfl⟩ := onTask_ok hk₁
  have hleave := switchAway_leaves .dead hc hp (by simp) ?_ h
  · exact ⟨p, hp, hleave.away, hleave.wire.trans
      (wire_modify k (f := fun t => { t with state := .dead }) (fun _ => rfl) p)⟩
  · simp only [stage, stopped]
    rw [map_seat_modify (g := fun x => { x with state := .dead }) fun _ => rfl]
    rfl

/-- A wake-up read backwards: it comes too late, or the task is ready now. -/
theorem unblock_ok (h : k.unblock i = .ok k') : k'.wire = k.wire ∧ (k'.stage = k.stage ∨
    ∃ y, k.stage.seats[i]? = some y ∧ y.state = .blocked ∧ k'.stage = k.stage.wake i) := by
  obtain ⟨y, hy, h⟩ := bind_eq_ok h
  have hy := task_ok hy
  split at h
  · rename_i hb
    obtain ⟨k₁, hk₁, h⟩ := bind_eq_ok h
    obtain rfl := Except.ok.inj h
    obtain ⟨-, rfl⟩ := onTask_ok hk₁
    refine ⟨wire_modify k (f := fun t => { t with state := .ready }) (fun _ => rfl) i,
      .inr ⟨y.seat, stage_seat hy, hb, ?_⟩⟩
    simp only [stage, Stage.wake, count]
    rw [map_seat_modify (g := fun x => { x with state := .ready }) fun _ => rfl]
    rfl
  · obtain rfl := Except.ok.inj h
    exact ⟨rfl, .inl rfl⟩

theorem unblock_step (hl : k.loaded = none) (h : k.unblock i = .ok k') :
    Stage.Step k.stage k'.stage := by
  obtain ⟨-, hs | ⟨y, hy, hb, hs⟩⟩ := unblock_ok h
  · exact hs ▸ .quiet
  · exact hs ▸ .wake hl hy hb

theorem deliver_step {km : KMessage} (hl : k.loaded = none) (h : k.deliver i km = .ok k') :
    Stage.Step k.stage k'.stage := by
  obtain ⟨k₁, hk₁, h⟩ := bind_eq_ok h
  rw [← onTask_stage hk₁ fun _ _ => rfl]
  obtain ⟨-, rfl⟩ := onTask_ok hk₁
  exact unblock_step (by exact hl) h

/-- A caller answered is not seen. -/
theorem step_of_seen {k₁ : Machine} (h : Stage.Step k.stage k₁.stage) (hs : k'.seen = k₁.seen) :
    Stage.Step k.stage k'.stage := by
  rwa [show k'.stage = k₁.stage from congrArg Prod.fst hs]

theorem quiet_of_seen (hs : k'.seen = k.seen) : Stage.Step k.stage k'.stage := by
  rw [show k'.stage = k.stage from congrArg Prod.fst hs]
  exact .quiet

/-- The machine after a decision on endpoint `ep`: the endpoint is `e`, and `ds` sends
and `dr` receives more have completed. -/
structure Ruled (ep : Fin numEndpoints) (e : Endpoint) (ds dr : UInt64) (k k₁ : Machine) :
    Prop where
  tasks : k₁.tasks = k.tasks
  stage : k₁.stage = k.stage
  wire : k₁.wire = { k.wire with
    ipc := Function.update k.ipc ep e
    sent := k.stats.sent + ds
    received := k.stats.received + dr }

section

variable {k₁ : Machine} {ep : Fin numEndpoints} {e : Endpoint} {ds dr : UInt64} {km : KMessage}
  {caller : Caller} {heap : Heap}

theorem Ruled.loaded (h : Ruled ep e ds dr k k₁) : k₁.loaded = k.loaded :=
  congrArg Stage.loaded h.stage

theorem Ruled.sameSched (h : Ruled ep e ds dr k k₁) : SameSched k k₁ :=
  ⟨by rw [h.tasks], congrArg Stage.bootstrap h.stage, congrArg Stage.current h.stage,
    congrArg Stage.prev h.stage, h.loaded⟩

/-- What is counted on the way to a decision's consequences. -/
theorem Ruled.count (ds' dr' : UInt64) {f : Stats → Stats} (h : Ruled ep e ds dr k k₁)
    (htally : (f k₁.stats).tally = k₁.stats.tally) (hs : (f k₁.stats).sent = k₁.stats.sent + ds')
    (hr : (f k₁.stats).received = k₁.stats.received + dr') :
    Ruled ep e (ds + ds') (dr + dr') k (k₁.count f) := by
  refine ⟨h.tasks, ?_, ?_⟩
  · rw [← h.stage]
    simp only [Machine.stage, Machine.count, htally]
  · have hsent : k₁.stats.sent = k.stats.sent + ds := congrArg Wire.sent h.wire
    have hrecv : k₁.stats.received = k.stats.received + dr := congrArg Wire.received h.wire
    have hipc : k₁.ipc = Function.update k.ipc ep e := congrArg Wire.ipc h.wire
    simp only [Machine.wire, Machine.count, hs, hr, hsent, hrecv, hipc, h.tasks, UInt64.add_assoc]

theorem Ruled.record (h : Ruled ep e ds dr k k₁) (ev : Event) :
    Ruled ep e ds dr k (k₁.record ev) := ⟨h.tasks, h.stage, h.wire⟩

theorem ruled_decided (ep : Fin numEndpoints) (e : Endpoint) :
    Ruled ep e 0 0 k { k with ipc := Function.update k.ipc ep e } :=
  ⟨rfl, rfl, by simp [wire]⟩

/-- A send read backwards. -/
theorem sendOn_ok (h : k.sendOn ep km caller = .ok k') : ∃ me, k.current = some me ∧
    ∃ k₁, match (k.ipc ep).decideSend me km with
      | (.deliver w, e) => Ruled ep e 1 0 k k₁ ∧ ∃ k₂, k₁.deliver w km = .ok k₂ ∧ k'.seen = k₂.seen
      | (.buffered, e) => Ruled ep e 1 0 k k₁ ∧ k'.seen = k₁.seen
      | (.block, e) => Ruled ep e 0 0 k k₁ ∧ k₁.parkAndSwitch (.sendParked ep caller) = .ok k'
      | (.full, e) => Ruled ep e 0 0 k k₁ ∧ k'.seen = k₁.seen := by
  obtain ⟨me, hme, h⟩ := bind_eq_ok h
  refine ⟨me, currentId_ok hme, ?_⟩
  generalize (k.ipc ep).decideSend me km = d at h
  obtain ⟨action, e⟩ := d
  have hcaps : ∀ ev, Ruled ep e 0 0 k (Machine.count (fun s =>
      if km.cap.isSome ∧ action ≠ .full then { s with capsMoved := s.capsMoved + 1 } else s)
      (if action ≠ .full then ({ k with ipc := Function.update k.ipc ep e } : Machine).record ev
        else { k with ipc := Function.update k.ipc ep e })) := by
    intro ev
    have hrec : Ruled ep e 0 0 k
        (if action ≠ .full then ({ k with ipc := Function.update k.ipc ep e } : Machine).record ev
          else { k with ipc := Function.update k.ipc ep e }) := by
      split
      · exact (ruled_decided ep e).record ev
      · exact ruled_decided ep e
    exact hrec.count 0 0 (by split <;> rfl) (by split <;> simp) (by split <;> simp)
  have hr := hcaps (.sendAccepted me ep km caller.via)
  cases action with
  | deliver w =>
    obtain ⟨k₂, hk₂, h⟩ := bind_eq_ok h
    exact ⟨_, hr.count 1 0 rfl rfl (by simp), k₂, hk₂, returnSend_seen h⟩
  | buffered => exact ⟨_, hr.count 1 0 rfl rfl (by simp), returnSend_seen h⟩
  | block => exact ⟨_, hr.count 0 0 rfl (by simp) (by simp), h⟩
  | full => exact ⟨_, hr, returnSend_seen h⟩

/-- A receive read backwards. -/
theorem recvOn_ok (h : k.recvOn heap ep caller = .ok k') : ∃ me, k.current = some me ∧
    ∃ k₁, match (k.ipc ep).decideRecv me with
      | (.got _, e) => Ruled ep e 0 1 k k₁ ∧ k'.seen = k₁.seen
      | (.wakeSender _ w, e) => Ruled ep e 0 1 k k₁ ∧ ∃ k₂, k₁.unblock w = .ok k₂ ∧ k'.seen = k₂.seen
      | (.block, e) => Ruled ep e 0 0 k k₁ ∧ k₁.parkAndSwitch (.recvParked ep caller) = .ok k'
      | (.full, e) => Ruled ep e 0 0 k k₁ ∧ k'.seen = k₁.seen := by
  obtain ⟨me, hme, h⟩ := bind_eq_ok h
  refine ⟨me, currentId_ok hme, ?_⟩
  generalize (k.ipc ep).decideRecv me = d at h
  obtain ⟨action, e⟩ := d
  have hr := (ruled_decided (k := k) ep e).record (.recvAccepted me ep caller.via)
  cases action with
  | got km => exact ⟨_, hr.count 0 1 rfl (by simp) rfl, returnRecv_seen h⟩
  | wakeSender km w =>
    obtain ⟨k₂, hk₂, h⟩ := bind_eq_ok h
    exact ⟨_, hr.count 0 1 rfl (by simp) rfl, k₂, hk₂, returnRecv_seen h⟩
  | block => exact ⟨_, hr.count 0 0 rfl (by simp) (by simp), h⟩
  | full => exact ⟨_, ruled_decided ep e, returnRecv_seen h⟩

theorem sendOn_step (hc : k.Coherent) (hl : k.loaded = none)
    (h : k.sendOn ep km caller = .ok k') : Stage.Step k.stage k'.stage := by
  obtain ⟨me, -, k₁, h⟩ := sendOn_ok h
  split at h
  · obtain ⟨hr, k₂, hk₂, hs⟩ := h
    have hstep := deliver_step (hr.loaded.trans hl) hk₂
    rw [hr.stage] at hstep
    exact step_of_seen hstep hs
  · obtain ⟨hr, hs⟩ := h
    exact step_of_seen (hr.stage ▸ .quiet) hs
  · obtain ⟨hr, hpark⟩ := h
    have hc₁ := hr.sameSched.coherent hc
    obtain ⟨p, hleave⟩ := parkAndSwitch_leaves hc₁ hpark
    exact hr.stage ▸ hleave.step hc₁ (hr.loaded.trans hl) (by simp)
  · obtain ⟨hr, hs⟩ := h
    exact step_of_seen (hr.stage ▸ .quiet) hs

theorem send_step {ep : ℕ} (hc : k.Coherent) (hl : k.loaded = none)
    (h : k.send ep km caller = .ok k') : Stage.Step k.stage k'.stage := by
  unfold send at h
  split at h
  · exact sendOn_step hc hl h
  · exact quiet_of_seen (returnSend_seen h)

theorem recvOn_step (hc : k.Coherent) (hl : k.loaded = none)
    (h : k.recvOn heap ep caller = .ok k') : Stage.Step k.stage k'.stage := by
  obtain ⟨me, -, k₁, h⟩ := recvOn_ok h
  split at h
  · obtain ⟨hr, hs⟩ := h
    exact step_of_seen (hr.stage ▸ .quiet) hs
  · obtain ⟨hr, k₂, hk₂, hs⟩ := h
    have hstep := unblock_step (hr.loaded.trans hl) hk₂
    rw [hr.stage] at hstep
    exact step_of_seen hstep hs
  · obtain ⟨hr, hpark⟩ := h
    have hc₁ := hr.sameSched.coherent hc
    obtain ⟨p, hleave⟩ := parkAndSwitch_leaves hc₁ hpark
    exact hr.stage ▸ hleave.step hc₁ (hr.loaded.trans hl) (by simp)
  · obtain ⟨hr, hs⟩ := h
    exact step_of_seen (hr.stage ▸ .quiet) hs

theorem recv_step {ep : ℕ} (hc : k.Coherent) (hl : k.loaded = none)
    (h : k.recv heap ep caller = .ok k') : Stage.Step k.stage k'.stage := by
  unfold recv at h
  split at h
  · exact recvOn_step hc hl h
  · exact quiet_of_seen (returnRecv_seen h)

end

/-! ### The syscalls -/

section

variable {heap : Heap} {frame : Frame} {corrupt : Bool}

/-- A send syscall goes straight back, or is a send. -/
theorem sysSend_ok (h : k.sysSend frame corrupt = .ok k') : k'.seen = k.seen ∨
    ∃ ep km via, k.send ep km (.ring3 frame corrupt via) = .ok k' := by
  obtain ⟨auth, -, h⟩ := bind_eq_ok h
  cases auth with
  | error e => exact .inl ((swapped_sysret_seen h :).trans rfl)
  | ok auth =>
    obtain ⟨id, obj⟩ := auth
    obtain ⟨msg, -, h⟩ := bind_eq_ok h
    cases msg with
    | none => exact .inl (swapped_sysret_seen h)
    | some msg =>
      dsimp only at h
      split at h
      · exact .inr ⟨_, _, _, h⟩
      · obtain ⟨cap, -, h⟩ := bind_eq_ok h
        cases cap with
        | none => exact .inl (swapped_sysret_seen h)
        | some cap => exact .inr ⟨_, _, _, h⟩

/-- A receive syscall goes straight back, or is a receive once its buffer was written to. -/
theorem sysRecv_ok (h : k.sysRecv heap frame corrupt = .ok k') : k'.seen = k.seen ∨
    ∃ k₁ ep via, k.writeUserMsg frame.rsi (Message.new 0) = .ok (some k₁) ∧
      k₁.recv heap ep (.ring3 frame corrupt via) = .ok k' := by
  obtain ⟨auth, -, h⟩ := bind_eq_ok h
  cases auth with
  | error e => exact .inl ((swapped_sysret_seen h :).trans rfl)
  | ok auth =>
    obtain ⟨id, obj⟩ := auth
    obtain ⟨o, ho, h⟩ := bind_eq_ok h
    cases o with
    | none => exact .inl (swapped_sysret_seen h)
    | some k₁ => exact .inr ⟨k₁, _, _, ho, h⟩

theorem sysRevoke_seen {handle : UInt32} {rc : Rc} (h : k.sysRevoke handle = .ok (rc, k')) :
    k'.seen = k.seen := by
  obtain ⟨cap, -, h⟩ := bind_eq_ok h
  cases cap with
  | none =>
    obtain ⟨-, rfl⟩ := Prod.ext_iff.mp (Except.ok.inj h)
    rfl
  | some cap =>
    dsimp only at h
    split at h
    · obtain ⟨-, rfl⟩ := Prod.ext_iff.mp (Except.ok.inj h)
      rfl
    · obtain ⟨-, rfl⟩ := Prod.ext_iff.mp (Except.ok.inj h)
      rfl

theorem debugWrite_seen {ptr len : UInt64} {rc : Rc} (h : k.debugWrite ptr len = .ok (rc, k')) :
    k'.seen = k.seen := by
  unfold debugWrite at h
  split at h
  · obtain ⟨-, rfl⟩ := Prod.ext_iff.mp (Except.ok.inj h)
    rfl
  · obtain ⟨space, -, h⟩ := bind_eq_ok h
    cases space with
    | none =>
      obtain ⟨-, rfl⟩ := Prod.ext_iff.mp (Except.ok.inj h)
      rfl
    | some space =>
      dsimp only at h
      split at h
      · obtain ⟨-, rfl⟩ := Prod.ext_iff.mp (Except.ok.inj h)
        rfl
      · split at h
        · obtain ⟨-, rfl⟩ := Prod.ext_iff.mp (Except.ok.inj h)
          rfl
        · obtain ⟨-, rfl⟩ := Prod.ext_iff.mp (Except.ok.inj h)
          rfl

theorem seen_swapGs {k₁ : Machine} (h : k₁.seen = k.seen) : k₁.swapGs.seen = k.swapGs.seen := by
  have hstage : k₁.stage.swapGs = k.stage.swapGs :=
    congrArg (fun v : Stage × Wire => v.1.swapGs) h
  have hwire : k₁.wire = k.wire := congrArg Prod.snd h
  exact Prod.ext hstage hwire

/-- The task's call, behind the stub's `swapgs` and the handler's first lines. -/
def entry (k : Machine) : Machine :=
  { k.swapGs.count (fun s => { s with syscalls := s.syscalls + 1 }) with armNoncanonical := false }

theorem entry_swapped_seen (f : Stats → Stats) (htally : ∀ s, (f s).tally = s.tally)
    (hs : ∀ s, (f s).sent = s.sent) (hr : ∀ s, (f s).received = s.received) :
    (k.entry.count f).swapGs.seen = k.seen := by
  refine Prod.ext ?_ ?_
  · have hstage : (k.entry.count f).swapGs.stage = k.stage.swapGs.swapGs := by
      simp only [stage, entry, Machine.count, swapGs, htally]
      rfl
    exact hstage.trans (Stage.swapGs_swapGs _)
  · simp only [Machine.seen, wire, entry, Machine.count, swapGs, hs, hr]

/-- The handler is on the stub's side of the `swapgs` no more, and nothing else happened. -/
structure Entered (k k₁ : Machine) : Prop where
  seen : k₁.seen = k.seen
  sched : SameSched k k₁
  ipc : k₁.ipc = k.ipc
  log : k₁.log = k.log

theorem entry_sameSched (f : Stats → Stats) : SameSched k (k.entry.count f).swapGs := by
  constructor <;> simp only [entry, Machine.count, swapGs]

theorem entry_tasks (f : Stats → Stats) : (k.entry.count f).swapGs.tasks = k.tasks := by
  simp only [entry, Machine.count, swapGs]

theorem entry_ipc (f : Stats → Stats) : (k.entry.count f).swapGs.ipc = k.ipc := by
  simp only [entry, Machine.count, swapGs]

theorem entry_objects (f : Stats → Stats) : (k.entry.count f).swapGs.objects = k.objects := by
  simp only [entry, Machine.count, swapGs]

theorem entry_log (f : Stats → Stats) : (k.entry.count f).swapGs.log = k.log := by
  simp only [entry, Machine.count, swapGs]

theorem entered_entry (f : Stats → Stats) (htally : ∀ s, (f s).tally = s.tally)
    (hs : ∀ s, (f s).sent = s.sent) (hr : ∀ s, (f s).received = s.received) :
    Entered k (k.entry.count f).swapGs :=
  ⟨entry_swapped_seen f htally hs hr, entry_sameSched f, entry_ipc f, entry_log f⟩

/-- A syscall read backwards: it comes straight back, or it is one of the calls that
leave the handler's side of the `swapgs`. -/
theorem onSyscall_ok (h : k.onSyscall heap frame = .ok k') : k'.seen = k.seen ∨
    ∃ k₁, Entered k k₁ ∧
      (k₁.reschedule (.yielded frame k.armNoncanonical) = .ok (some k') ∨ k₁.exit = .ok k' ∨
        k₁.sysSend frame k.armNoncanonical = .ok k' ∨
        k₁.sysRecv heap frame k.armNoncanonical = .ok k') := by
  have hin : Entered k (k.entry.count id).swapGs :=
    entered_entry id (fun _ => rfl) (fun _ => rfl) (fun _ => rfl)
  have hback : ∀ {k₁ : Machine} {rc : Rc}, k₁.swapGs.seen = k.seen →
      k₁.sysret frame k.armNoncanonical rc = .ok k' → k'.seen = k.seen := by
    intro k₁ rc hk₁ hret
    rw [sysret_seen hret, hk₁]
  unfold onSyscall at h
  cases hcall : Syscall.fromRaw frame.rax with
  | none =>
    rw [hcall] at h
    exact .inl (hback (entry_swapped_seen (fun s => { s with refused := s.refused + 1 })
      (fun _ => rfl) (fun _ => rfl) (fun _ => rfl)) h)
  | some call =>
    rw [hcall] at h
    cases call with
    | yield =>
      obtain ⟨o, ho, h⟩ := bind_eq_ok h
      have hy : Entered k (k.entry.count fun s => { s with yieldCalls := s.yieldCalls + 1 }).swapGs :=
        entered_entry _ (fun _ => rfl) (fun _ => rfl) (fun _ => rfl)
      cases o with
      | none => exact .inl ((swapped_sysret_seen h).trans hy.seen)
      | some k₂ =>
        obtain rfl := Except.ok.inj h
        exact .inr ⟨_, hy, .inl ho⟩
    | exit => exact .inr ⟨_, hin, .inr (.inl h)⟩
    | send => exact .inr ⟨_, hin, .inr (.inr (.inl h))⟩
    | recv => exact .inr ⟨_, hin, .inr (.inr (.inr h))⟩
    | debugWrite =>
      obtain ⟨⟨rc, k₁⟩, hk₁, h⟩ := bind_eq_ok h
      exact .inl (hback ((seen_swapGs (debugWrite_seen hk₁)).trans hin.seen) h)
    | revoke =>
      obtain ⟨⟨rc, k₁⟩, hk₁, h⟩ := bind_eq_ok h
      exact .inl (hback ((seen_swapGs (sysRevoke_seen hk₁)).trans hin.seen) h)

theorem Entered.stage {k₁ : Machine} (h : Entered k k₁) : k₁.stage = k.stage :=
  congrArg Prod.fst h.seen

theorem Entered.queued {k₁ : Machine} (h : Entered k k₁) (hq : k.net.Queued ringCap) :
    k₁.net.Queued ringCap := by
  have hnet : k₁.net = k.net :=
    Net.ext (by simp only [net, h.ipc]) h.sched.phase (by simp only [net, h.log])
  rwa [hnet]

theorem writeUserMsg_sameSched {ptr : UInt64} {msg : Message} (hc : k.Coherent)
    (hk : k.current = some t) (h : k.writeUserMsg ptr msg = .ok (some k')) : SameSched k k' := by
  obtain ⟨x, hx, -⟩ := hc.current_seat hk
  by_cases hw : x.Writable ptr
  · rw [writeUserMsg_of_writable msg hk hx hw] at h
    obtain rfl := Option.some.inj (Except.ok.inj h)
    exact (own_rewriteTask _ _).sameSched
  · rw [writeUserMsg_of_not_writable msg hk hx hw] at h
    cases h

theorem onSyscall_step (hc : k.Coherent) (hq : k.net.Queued ringCap) (hl : k.loaded = none)
    (hk : k.current = some t) (h : k.onSyscall heap frame = .ok k') : Stage.Step k.stage k'.stage := by
  obtain hs | ⟨k₁, he, h⟩ := onSyscall_ok h
  · exact quiet_of_seen hs
  · have hc₁ := he.sched.coherent hc
    have hl₁ := he.sched.loaded.trans hl
    have hq₁ := he.queued hq
    rw [← he.stage]
    obtain h | h | h | h := h
    · obtain ⟨p, hleave⟩ := reschedule_leaves hc₁ h
      exact hleave.step hc₁ hl₁ (by simp)
    · obtain ⟨p, hleave⟩ := exit_leaves hc₁ hq₁ hl₁ h
      exact hleave.step hc₁ hl₁ (by simp)
    · obtain hs | ⟨ep, km, via, h⟩ := sysSend_ok h
      · exact quiet_of_seen hs
      · exact send_step hc₁ hl₁ h
    · obtain hs | ⟨k₂, ep, via, hk₂, h⟩ := sysRecv_ok h
      · exact quiet_of_seen hs
      · have hown := writeUserMsg_sameSched hc₁ (he.sched.current.trans hk) hk₂
        rw [← show k₂.stage = k₁.stage from congrArg Prod.fst (writeUserMsg_seen hk₂)]
        exact recv_step (hown.coherent hc₁) (hown.loaded.trans hl₁) h

end

/-! ### Coming back -/

section

variable {heap : Heap} {r : Resume}

theorem reap_seat (t : Task) :
    (reap t).seat = if t.seat.state = .dead then t.seat.give else t.seat := by
  by_cases hd : t.state = .dead
  · simp [reap, hd, Task.seat, Seat.give]
  · simp [reap, hd, Task.seat]

/-- Settling the task switched away from: a dead one's mailbox is empty already. -/
theorem postSwitch_settle (hl : k.loaded = none)
    (hdead : ∀ (i : ℕ) (t : Task), k.tasks[i]? = some t → t.state = .dead → t.mailbox = none)
    (h : k.postSwitch = .ok k') : k'.stage = k.stage.settle ∧ k'.wire = k.wire := by
  unfold postSwitch at h
  cases hp : k.prev with
  | none =>
    rw [hp] at h
    obtain rfl := Except.ok.inj h
    refine ⟨?_, rfl⟩
    simp only [stage, Stage.settle, hp, hl]
    rfl
  | some i =>
    rw [hp] at h
    obtain ⟨t, ht, h⟩ := bind_eq_ok h
    obtain ⟨k₁, hk₁, h⟩ := bind_eq_ok h
    obtain rfl := Except.ok.inj h
    obtain ⟨-, rfl⟩ := onTask_ok hk₁
    have ht : k.tasks[i]? = some t := task_ok ht
    have hseat : k.stage.seats[i]? = some t.seat := stage_seat ht
    refine ⟨?_, ?_⟩
    · have hprev : k.stage.prev = some i := hp
      simp only [Stage.settle, hprev, hseat, Option.bind_some, Option.map_some]
      simp only [stage, Machine.count]
      rw [map_seat_modify (g := fun x => if x.state = .dead then x.give else x) reap_seat]
      congr 1
      by_cases hd : t.state = .dead
      · cases hsp : t.space <;> by_cases hst : t.stack = 0 <;>
          simp [Stats.tally, Tally.reaped, Task.seat, hd, hst, hsp]
      · cases hsp : t.space <;> simp [Stats.tally, Tally.reaped, Task.seat, hd, hsp]
    · have hmail : (reap t).mailbox = t.mailbox := by
        by_cases hd : t.state = .dead
        · simp [reap, hd, hdead i t ht hd]
        · simp [reap, hd]
      simp only [wire, Machine.count, map_modify_at ht hmail]
      by_cases hd : t.state = .dead
      · cases hsp : t.space <;> by_cases hst : t.stack = 0 <;> simp [hd, hst]
      · cases hsp : t.space <;> simp [hd]

theorem Coherent.dead_mailbox (hc : k.Coherent) (i : ℕ) (t : Task) (ht : k.tasks[i]? = some t)
    (hd : t.state = .dead) : t.mailbox = none := by
  have hok := hc.ok i t ht
  rwa [Task.Ok, hd] at hok

theorem startLoop_ok (h : k.startLoop = .ok k') :
    (k.firstReady = none ∧ k' = { k with loaded := none }) ∨
    ∃ next y, k.tasks[next]? = some y ∧ y.state = .ready ∧
      ∀ r, y.ctx = .saved r →
        k'.stage = k.stage.board.enter none next y.seat r ∧ k'.wire = k.wire := by
  unfold startLoop at h
  cases hf : k.firstReady with
  | none =>
    rw [hf] at h
    exact .inl ⟨rfl, (Except.ok.inj h).symm⟩
  | some first =>
    rw [hf] at h
    obtain ⟨y, hy, hready⟩ := firstReady_some hf
    refine .inr ⟨first, y, hy, hready, fun r hctx => ?_⟩
    have hd : k.dispatch none .inStart first = _ := dispatch_eq (fun i hi => by cases hi) hy hctx
    obtain rfl := Except.ok.inj (hd.symm.trans h)
    exact ⟨stage_entered .., wire_entered ..⟩

theorem start_step (hc : k.Coherent) (hl : k.loaded = none) (hcur : k.current = none)
    (h : k.start = .ok k') : Stage.Step k.stage k'.stage := by
  obtain ⟨-, rfl⟩ | ⟨next, y, hy, hready, hk'⟩ := startLoop_ok h
  · have hstep := Stage.Step.nothing (s := k.stage) hl hcur
    rwa [show k.stage.adopt = ({ k with kernelRoot := k.cpu.cr3, loaded := none } : Machine).stage by
      simp only [stage, Stage.adopt, hl]] at hstep
  · obtain ⟨r, hctx⟩ := hc.ready_seat (stage_seat hy) hready
    rw [(hk' r hctx).1]
    exact .start hl hcur (stage_seat hy) hready hctx

/-- What a ready seat was before it was settled. -/
theorem ready_settled {s : Stage} {y : Seat} (hy : s.settle.seats[i]? = some y)
    (hr : y.state = .ready) : s.seats[i]? = some y := by
  unfold Stage.settle at hy
  split at hy
  · exact hy
  · rename_i p z _
    by_cases hp : p = i
    · subst hp
      cases hz : s.seats[p]? with
      | none => simp [hz] at hy
      | some w =>
        simp only [List.getElem?_modify_eq, hz, Option.map_eq_map, Option.map_some,
          Option.some.injEq] at hy
        split at hy
        · rename_i hd
          rw [← hy] at hr
          exact absurd (hr.symm.trans hd) (by simp)
        · rw [hy]
    · simpa [hp] using hy

/-- A task's continuation read backwards: it settles first, and then a parked call is
completed and answered. -/
theorem resume_task (hc : k.Coherent) (hr : k.loaded = some r) (hp : k.current = some p)
    (h : k.resume heap = .ok k') : ∃ k₁ : Machine, k₁.stage = k.stage.settle ∧ k₁.wire = k.wire ∧
      match r with
      | .sendParked _ _ => k'.seen = (k₁.count fun s => { s with sent := s.sent + 1 }).seen
      | .recvParked _ _ => ∃ (km : KMessage) (k₂ : Machine), k₁.takeMailbox = .ok (km, k₂) ∧
          k'.seen = (k₂.count fun s => { s with received := s.received + 1 }).seen
      | _ => k'.seen = k₁.seen := by
  have hof : r.ofTask := by
    obtain ⟨-, hno⟩ | ⟨hof, -⟩ := hc.loaded r hr
    · cases hp.symm.trans hno
    · exact hof
  have hsettle : ∀ {k₁ : Machine}, ({ k with loaded := none } : Machine).postSwitch = .ok k₁ →
      k₁.stage = k.stage.settle ∧ k₁.wire = k.wire := by
    intro k₁ hk₁
    obtain ⟨hstage, hwire⟩ := postSwitch_settle rfl (by exact hc.dead_mailbox) hk₁
    exact ⟨hstage, hwire⟩
  unfold resume at h
  rw [hr] at h
  dsimp only at h
  cases r with
  | trampoline => exact ⟨k', (hsettle h).1, (hsettle h).2, rfl⟩
  | preempted =>
    obtain ⟨k₁, hk₁, h⟩ := bind_eq_ok h
    obtain rfl := Except.ok.inj h
    exact ⟨k₁, (hsettle hk₁).1, (hsettle hk₁).2, rfl⟩
  | yielded frame corrupt =>
    obtain ⟨k₁, hk₁, h⟩ := bind_eq_ok h
    exact ⟨k₁, (hsettle hk₁).1, (hsettle hk₁).2, (swapped_sysret_seen h :)⟩
  | sendParked ep caller =>
    obtain ⟨k₁, hk₁, h⟩ := bind_eq_ok h
    exact ⟨k₁, (hsettle hk₁).1, (hsettle hk₁).2, returnSend_seen h⟩
  | recvParked ep caller =>
    obtain ⟨k₁, hk₁, h⟩ := bind_eq_ok h
    obtain ⟨⟨km, k₂⟩, hk₂, h⟩ := bind_eq_ok h
    exact ⟨k₁, (hsettle hk₁).1, (hsettle hk₁).2, km, k₂, hk₂, returnRecv_seen h⟩
  | inStart => cases hof
  | exited => cases hof

/-- The bootstrap's continuation: it settles, and `start` goes on looking. -/
theorem resume_bootstrap (hc : k.Coherent) (hcur : k.current = none)
    (h : k.resume heap = .ok k') : k.loaded = some .inStart ∧
      ∃ k₁ : Machine, k₁.stage = k.stage.home.settle ∧ k₁.wire = k.wire ∧ k₁.startLoop = .ok k' := by
  unfold resume at h
  cases hr : k.loaded with
  | none =>
    rw [hr] at h
    cases h
  | some r =>
    obtain ⟨rfl, -⟩ | ⟨-, hsome⟩ := hc.loaded r hr
    · rw [hr] at h
      simp only [enter_none_eq] at h
      obtain ⟨k₁, hk₁, h⟩ := bind_eq_ok h
      obtain ⟨hstage, hwire⟩ := postSwitch_settle rfl (by exact hc.dead_mailbox) hk₁
      exact ⟨rfl, k₁, hstage, hwire, h⟩
    · rw [hcur] at hsome
      cases hsome

/-- The loaded continuation settles the task switched away from, whatever it is. -/
theorem resume_step (hc : k.Coherent) (h : k.resume heap = .ok k') :
    Stage.Step k.stage k'.stage ∧ k'.prev = none := by
  cases hcur : k.current with
  | some p =>
    cases hr : k.loaded with
    | none =>
      unfold resume at h
      rw [hr] at h
      cases h
    | some r =>
      obtain ⟨k₁, hs, -, h⟩ := resume_task hc hr hcur h
      have hstep : Stage.Step k.stage k.stage.settle := .resume hr (by
        show k.current.isSome
        rw [hcur]; rfl)
      suffices hs' : k'.stage = k.stage.settle by
        rw [hs']
        exact ⟨hstep, (congrArg Stage.prev hs').trans (Stage.settle_prev _)⟩
      rw [← hs]
      split at h
      · exact congrArg Prod.fst h
      · obtain ⟨km, k₂, hk₂, h⟩ := h
        obtain ⟨me, y, -, hy, -, rfl⟩ := takeMailbox_ok hk₂
        exact (congrArg Prod.fst h).trans
          (stage_modify k₁ (f := fun t => { t with mailbox := none }) (fun _ => rfl) me)
      · exact congrArg Prod.fst h
  | none =>
    obtain ⟨hr, k₁, hs, -, h⟩ := resume_bootstrap hc hcur h
    obtain ⟨-, rfl⟩ | ⟨next, y, hy, hready, hk'⟩ := startLoop_ok h
    · have hl : k₁.loaded = none := (congrArg Stage.loaded hs).trans (Stage.settle_loaded _)
      have hstep := Stage.Step.stop (s := k.stage) hr hcur
      rw [← hs] at hstep
      exact ⟨by simpa only [stage, hl] using hstep,
        (congrArg Stage.prev hs).trans (Stage.settle_prev _)⟩
    · have hseat := stage_seat hy
      rw [hs] at hseat
      have hseat₀ : k.stage.seats[next]? = some y.seat :=
        ready_settled (s := k.stage.home) hseat hready
      obtain ⟨r, hctx⟩ := hc.ready_seat hseat₀ hready
      have hk' := (hk' r hctx).1
      rw [hk', hs]
      exact ⟨.again hr hcur hseat₀ hready hctx, congrArg Stage.prev hk'⟩

theorem spawnUser_step {stack : Option UInt64} {space : Option UserSpace} {grants : List Cap}
    (hl : k.loaded = none)
    (hsp : ∀ i t, k.current = some i → k.tasks[i]? = some t → t.space = none) :
    Stage.Step k.stage (k.spawnUser heap stack space grants).stage := by
  unfold spawnUser
  split
  · exact .quiet
  · rename_i caps _
    cases stack with
    | none => exact .quiet
    | some top =>
      let x : Seat :=
        { ctx := .saved .trampoline
          stack := stackWords
          top := top
          cr3 := (space.map UserSpace.root).getD k.cpu.cr3
          space := space.map fun s => (s.root, s.frames)
          state := .ready }
      have hx : k.stage.Fresh x := by
        refine ⟨rfl, rfl, rfl, ?_, ?_⟩
        · cases space <;> rfl
        · intro i y hi hy
          obtain ⟨t, ht, rfl⟩ := of_stage_seat hy
          simp [Task.seat, hsp i t hi ht]
      have hstep := Stage.Step.join (s := k.stage) hl hx
      convert hstep using 1
      simp only [Option.isSome_some, if_true, spawnWith, record, stage, List.map_append,
        List.map_cons, List.map_nil]
      rfl

end

/-- The scheduler sees one of its own steps in every act. -/
theorem Move.staged {l : Heap × Act} (hc : k.Coherent) (hq : k.net.Queued ringCap)
    (h : k.Move l k') : Stage.Step k.stage k'.stage := by
  obtain ⟨heap, act⟩ := l
  obtain ⟨he, h⟩ := h
  cases act with
  | spawn stack space grants =>
    obtain rfl := Except.ok.inj h
    exact spawnUser_step he.1 he.2
  | start => exact start_step hc he.1 he.2 h
  | timer =>
    let k₁ : Machine := { k with needResched := false }
    have hsame : SameSched k k₁ := ⟨rfl, rfl, rfl, rfl, rfl⟩
    simp only [step, onIrqEpilogue, requestResched, if_true] at h
    obtain ⟨o, ho, h⟩ := bind_eq_ok h
    cases o with
    | none =>
      obtain rfl := Except.ok.inj h
      exact .quiet
    | some k₂ =>
      obtain rfl := Except.ok.inj h
      have hc₁ := hsame.coherent hc
      obtain ⟨p, hleave⟩ := reschedule_leaves hc₁ ho
      exact hleave.step hc₁ he (by simp)
  | syscall frame =>
    obtain ⟨hl, t, x, hk, -⟩ := he
    exact onSyscall_step hc hq hl hk h
  | send ep km => exact send_step hc he.1 h
  | recv ep => exact recv_step hc he.1 h
  | exit =>
    obtain ⟨p, hleave⟩ := exit_leaves hc hq he.1 h
    exact hleave.step hc he.1 (by simp)
  | store addr value =>
    simp only [step] at h
    split at h
    · cases h
    · refine quiet_of_seen (onTask_seen h fun y _ => ⟨?_, rfl⟩)
      cases hs : y.space <;> simp [Task.seat, hs]
  | create object =>
    simp only [step] at h
    split at h <;> (obtain rfl := Except.ok.inj h; exact .quiet)
  | revoke r =>
    simp only [step] at h
    obtain rfl := Except.ok.inj h
    split <;> exact .quiet
  | arm =>
    obtain rfl := Except.ok.inj h
    exact .quiet
  | resume => exact (resume_step hc h).1

end Machine

end StarOs.Kernel
