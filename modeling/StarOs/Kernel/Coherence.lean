import StarOs.Kernel.Usermode

/-! What holds between two acts of the core: one task runs or none does, every
task's saved context fits its state, and a mailbox is full only for a receiver
that has not resumed. `net` reads the machine as rendezvous channels. -/

namespace StarOs.Kernel

open Library

/-- A continuation of a task, as opposed to the bootstrap's or a dead one's. -/
def Resume.ofTask : Resume → Bool
  | .inStart | .exited => false
  | _ => true

/-- A continuation that takes the mailbox. -/
def Resume.awaits : Resume → Bool
  | .recvParked _ _ => true
  | _ => false

/-- A continuation behind `park_and_switch`. -/
def Resume.parks : Resume → Bool
  | .recvParked _ _ | .sendParked _ _ => true
  | _ => false

/-- What a runnable task with this continuation is doing. -/
def Resume.phase (mailbox : Option KMessage) : Resume → Phase (Fin numEndpoints) KMessage
  | .recvParked _ _ => (mailbox.map Phase.handed).getD .free
  | .sendParked _ _ => .released
  | _ => .free

/-- What a blocked task with this continuation waits for. -/
def Resume.waits : Resume → Phase (Fin numEndpoints) KMessage
  | .recvParked ep _ => .receiving ep
  | .sendParked ep _ => .sending ep
  | _ => .free

namespace Task

/-- Which spans `range_ok` lets the kernel touch on the task's behalf. -/
def reach (t : Task) : Option (UInt64 → UInt64 → Bool → Bool) := t.space.map UserSpace.rangeOk

/-- Where a message may be copied: an aligned, writable span of the task's space. -/
def Writable (t : Task) (ptr : UInt64) : Prop :=
  ptr % 8 = 0 ∧ ∃ ok, t.reach = some ok ∧ ok ptr messageSize true = true

/-- Whoever waits for a receive can be answered: a ring-3 caller's buffer is writable. -/
def Hosts (t : Task) : Caller → Prop
  | .thread => True
  | .ring3 frame _ _ => t.Writable frame.rsi

/-- The continuation can be run as this task. -/
def Fits (t : Task) : Resume → Prop
  | .recvParked _ caller => t.Hosts caller
  | _ => True

/-- The task's saved context and mailbox fit its state; `loaded` is the
continuation the running task is about to run, if it is. -/
def Ok (loaded : Option Resume) (t : Task) : Prop :=
  match t.state with
  | .ready => ∃ r, t.ctx = .saved r ∧ r.ofTask ∧ t.mailbox.isSome = r.awaits ∧ t.Fits r
  | .running => t.ctx = .loaded ∧ t.mailbox.isSome = (loaded.map Resume.awaits).getD false ∧
      ∀ r, loaded = some r → t.Fits r
  | .blocked => ∃ r, t.ctx = .saved r ∧ r.parks ∧ t.mailbox = none ∧ t.Fits r
  | .dead => t.mailbox = none

/-- The task's phase on the wire. -/
def phase (loaded : Option Resume) (t : Task) : Phase (Fin numEndpoints) KMessage :=
  match t.state, t.ctx with
  | .dead, _ => .gone
  | .running, _ => (loaded.map (Resume.phase t.mailbox)).getD .free
  | .ready, .saved r => r.phase t.mailbox
  | .blocked, .saved r => r.waits
  | _, _ => .free

/-- Only the running task cares which continuation is loaded. -/
theorem ok_of_stopped {t : Task} (l : Option Resume) (h : t.state ≠ .running) :
    t.Ok l ↔ t.Ok none := by
  cases hst : t.state with
  | running => exact absurd hst h
  | ready => simp [Ok, hst]
  | blocked => simp [Ok, hst]
  | dead => simp [Ok, hst]

theorem phase_of_stopped {t : Task} (l : Option Resume) (h : t.state ≠ .running) :
    t.phase l = t.phase none := by
  cases hst : t.state with
  | running => exact absurd hst h
  | ready => cases hctx : t.ctx <;> simp [phase, hst, hctx]
  | blocked => cases hctx : t.ctx <;> simp [phase, hst, hctx]
  | dead => simp [phase, hst]

/-- What a task holds, as opposed to how it is scheduled. -/
def holdings (t : Task) : Option UserSpace × CapTable × Option KMessage :=
  (t.space, t.caps, t.mailbox)

/-- What a task may do and touch. -/
def authority (t : Task) : Option UserSpace × CapTable := (t.space, t.caps)

/-- What the scheduler and the wire see of a task. -/
def core (t : Task) : State × Context × Option KMessage × Option (UInt64 → UInt64 → Bool → Bool) :=
  (t.state, t.ctx, t.mailbox, t.reach)

theorem fits_of_reach {t t' : Task} (h : t'.reach = t.reach) {r : Resume} (hf : t.Fits r) :
    t'.Fits r := by
  cases r with
  | recvParked ep caller =>
    cases caller with
    | thread => trivial
    | ring3 frame corrupt via => simpa only [Fits, Hosts, Writable, h] using hf
  | _ => trivial

end Task

namespace Machine

/-- The sends and receives in the history variable. -/
def traffic (log : List Event) : List (Traffic ℕ (Fin numEndpoints) KMessage) :=
  log.filterMap fun
    | .sendAccepted t ep km _ => some (.sent t ep km)
    | .recvAccepted t ep _ => some (.asked t ep)
    | .recvReturned t (.ok km) => some (.got t km)
    | _ => none

/-- A task's phase; in a slot nobody was spawned into, nobody is. -/
def phase (k : Machine) (i : ℕ) : Phase (Fin numEndpoints) KMessage :=
  match k.tasks[i]? with
  | some t => t.phase k.loaded
  | none => .absent

/-- The machine as rendezvous channels. -/
def net (k : Machine) : Net ℕ (Fin numEndpoints) KMessage where
  chan ep := (k.ipc ep).chan
  phase := k.phase
  history := traffic k.log

/-- One task runs or none does, and everybody's context fits. -/
structure Coherent (k : Machine) : Prop where
  ok : ∀ (i : ℕ) (t : Task), k.tasks[i]? = some t → t.Ok k.loaded
  running : ∀ (i : ℕ) (t : Task), k.tasks[i]? = some t → (t.state = .running ↔ k.current = some i)
  current : ∀ i, k.current = some i → i < k.tasks.length
  loaded : ∀ r, k.loaded = some r →
    (r = .inStart ∧ k.current = none) ∨ (r.ofTask ∧ k.current.isSome)
  prev : ∀ i, k.prev = some i → k.loaded.isSome ∧ i < k.tasks.length
  bootstrap : k.current.isSome → k.bootstrap = .saved .inStart

theorem init_coherent (root : UInt64) : (init root).Coherent := by
  constructor <;> simp [init]

/-- Nobody runs: the state inside a switch, after the save and before the load. -/
structure Settled (k : Machine) : Prop where
  ok : ∀ (i : ℕ) (t : Task), k.tasks[i]? = some t → t.Ok none
  stopped : ∀ (i : ℕ) (t : Task), k.tasks[i]? = some t → t.state ≠ .running

/-- Save the running context, as a plain update. -/
def saved (who : Option ℕ) (r : Resume) (k : Machine) : Machine :=
  match who with
  | some i => { k with tasks := k.tasks.modify i fun t => { t with ctx := .saved r } }
  | none => { k with bootstrap := .saved r }

/-- The machine once `next` has been switched to, from the state with the
previous context saved. -/
def entered (prev : Option ℕ) (next : ℕ) (t : Task) (r : Resume) (k : Machine) : Machine :=
  { k with
    tasks := k.tasks.modify next fun t => { t with state := .running, ctx := .loaded }
    current := some next
    prev := prev
    cpu := { k.cpu with cr3 := t.cr3, rsp0 := t.kernelStackTop, kernelRsp := t.kernelStackTop }
    stats := { k.stats with switches := k.stats.switches + 1 }
    loaded := some r }

/-- The machine back in its bootstrap context. -/
def idled (prev : ℕ) (r : Resume) (k : Machine) : Machine :=
  { k with
    bootstrap := .loaded
    current := none
    prev := some prev
    cpu := { k.cpu with cr3 := k.kernelRoot }
    stats := { k.stats with switches := k.stats.switches + 1 }
    loaded := some r }

variable {k : Machine}

theorem modify_comm {l : List Task} (f g : Task → Task) {i j : ℕ} (h : i ≠ j) :
    (l.modify i f).modify j g = (l.modify j g).modify i f := by
  apply List.ext_getElem?
  intro n
  grind

theorem dispatch_eq {prev : Option ℕ} {next : ℕ} {r r' : Resume} {t : Task}
    (hprev : ∀ i, prev = some i → i < k.tasks.length ∧ i ≠ next)
    (ht : k.tasks[next]? = some t) (hctx : t.ctx = .saved r') :
    k.dispatch prev r next = .ok (entered prev next t r' (k.saved prev r)) := by
  have hlt := lt_of_getElem? ht
  have hget : (k.tasks.modify next fun t => { t with state := .running })[next]? =
      some { t with state := .running } := by simp [ht]
  simp only [dispatch, onTask_eq _ hlt, ok_bind, task, hget, enter_eq, count, contextSwitch]
  cases prev with
  | none =>
    simp only [saveContext, ok_bind, loadContext, task, hget, hctx]
    rw [onTask_eq _ (by simpa using hlt)]
    simp only [ok_bind, saved, entered, List.modify_modify_eq]
    rfl
  | some p =>
    obtain ⟨hp, hne⟩ := hprev p rfl
    simp only [saveContext]
    rw [onTask_eq _ (by simpa using hp)]
    have hget' : ((k.tasks.modify next fun t => { t with state := .running }).modify p
        fun t => { t with ctx := .saved r })[next]? = some { t with state := .running } := by
      simp [ht, hne]
    simp only [ok_bind, loadContext, task, hget', hctx]
    rw [onTask_eq _ (by simpa using hlt)]
    simp only [ok_bind, saved, entered, modify_comm _ _ (Ne.symm hne), List.modify_modify_eq]
    rfl

theorem toBootstrap_eq {prev : ℕ} {r r' : Resume} (hp : prev < k.tasks.length)
    (hb : k.bootstrap = .saved r') :
    k.toBootstrap prev r = .ok (idled prev r' (k.saved (some prev) r)) := by
  simp only [toBootstrap, enter_none_eq, count, contextSwitch, saveContext]
  rw [onTask_eq _ (by exact hp)]
  simp only [ok_bind, loadContext, hb]
  rfl

/-! ### Switching -/

theorem Coherent.settled (hc : k.Coherent) (hcur : k.current = none) (hl : k.loaded = none) :
    k.Settled where
  ok i t ht := hl ▸ hc.ok i t ht
  stopped i t ht hr := by
    have := (hc.running i t ht).mp hr
    rw [hcur] at this
    cases this

/-- Entering a ready task from a settled state makes the machine coherent again,
and is invisible on the wire. -/
theorem Settled.entered (prev : Option ℕ) {next : ℕ} {t : Task} {r : Resume} (hs : k.Settled)
    (hl : k.loaded = none) (hb : k.bootstrap = .saved .inStart)
    (hprev : ∀ i, prev = some i → i < k.tasks.length)
    (ht : k.tasks[next]? = some t) (hr : t.state = .ready) (hctx : t.ctx = .saved r) :
    (k.entered prev next t r).Coherent ∧ (k.entered prev next t r).net = k.net := by
  have hok := hs.ok next t ht
  simp only [Task.Ok, hr] at hok
  obtain ⟨r', hctx', hof, hmail, hfits⟩ := hok
  obtain rfl : r = r' := by simpa [hctx] using hctx'
  have hlt := lt_of_getElem? ht
  constructor
  · constructor
    · intro i x hx
      by_cases hi : next = i
      · subst hi
        obtain rfl : _ = x := by simpa [Machine.entered, ht] using hx
        refine ⟨rfl, by simpa [Machine.entered] using hmail, fun r' hr' => ?_⟩
        obtain rfl : r = r' := by simpa [Machine.entered] using hr'
        exact Task.fits_of_reach rfl hfits
      · have hx' : k.tasks[i]? = some x := by simpa [Machine.entered, hi] using hx
        exact (Task.ok_of_stopped _ (hs.stopped i x hx')).mpr (hs.ok i x hx')
    · intro i x hx
      by_cases hi : next = i
      · subst hi
        obtain rfl : _ = x := by simpa [Machine.entered, ht] using hx
        simp [Machine.entered]
      · have hx' : k.tasks[i]? = some x := by simpa [Machine.entered, hi] using hx
        have hne := hs.stopped i x hx'
        simp [Machine.entered, hne, hi]
    · intro i hi
      obtain rfl : next = i := by simpa [Machine.entered] using hi
      simpa [Machine.entered] using hlt
    · intro r' hr'
      obtain rfl : r = r' := by simpa [Machine.entered] using hr'
      exact .inr ⟨hof, rfl⟩
    · intro i hi
      exact ⟨rfl, by simpa [Machine.entered] using hprev i hi⟩
    · intro _
      exact hb
  · have hphase : (k.entered prev next t r).phase = k.phase := by
      funext i
      by_cases hi : next = i
      · subst hi
        simp [Machine.phase, Machine.entered, ht, Task.phase, hr, hctx]
      · cases hx : k.tasks[i]? with
        | none => simp [Machine.phase, Machine.entered, hi, hx]
        | some x =>
          simp only [Machine.phase, Machine.entered, List.getElem?_modify_ne _ _ hi, hx, hl]
          exact Task.phase_of_stopped _ (hs.stopped i x hx)
    exact Net.ext rfl hphase rfl

/-- So does going back to the bootstrap context. -/
theorem Settled.idled (prev : ℕ) (hs : k.Settled) (hl : k.loaded = none)
    (hprev : prev < k.tasks.length) :
    (k.idled prev .inStart).Coherent ∧ (k.idled prev .inStart).net = k.net := by
  constructor
  · constructor
    · intro i t ht
      exact (Task.ok_of_stopped _ (hs.stopped i t ht)).mpr (hs.ok i t ht)
    · intro i t ht
      simpa [Machine.idled] using hs.stopped i t ht
    · intro i hi
      cases hi
    · intro r hr
      exact .inl ⟨(Option.some.inj hr).symm, rfl⟩
    · intro i hi
      obtain rfl : prev = i := by simpa [Machine.idled] using hi
      exact ⟨rfl, hprev⟩
    · intro h
      cases h
  · have hphase : (k.idled prev .inStart).phase = k.phase := by
      funext i
      cases ht : k.tasks[i]? with
      | none => simp [Machine.phase, Machine.idled, ht]
      | some t =>
        simp only [Machine.phase, Machine.idled, ht, hl]
        exact Task.phase_of_stopped _ (hs.stopped i t ht)
    exact Net.ext rfl hphase rfl

theorem map_modify_of_eq {β : Type} {g : Task → β} {f : Task → Task} (l : List Task) (i : ℕ)
    (h : ∀ t, g (f t) = g t) : (l.modify i f).map g = l.map g := by
  apply List.ext_getElem?
  intro n
  rw [List.getElem?_map, List.getElem?_modify, List.getElem?_map]
  cases l[n]? with
  | none => rfl
  | some t => by_cases hi : i = n <;> simp [hi, h]

/-- A switch moves no message, capability or memory. -/
structure Switched (k k' : Machine) : Prop where
  holdings : k'.tasks.map Task.holdings = k.tasks.map Task.holdings
  ipc : k'.ipc = k.ipc
  objects : k'.objects = k.objects
  log : k'.log = k.log

theorem saved_getElem?_ne {p i : ℕ} (r : Resume) (h : p ≠ i) :
    (k.saved (some p) r).tasks[i]? = k.tasks[i]? := by
  simp [Machine.saved, h]

theorem switched_saved (who : Option ℕ) (r : Resume) : Switched k (k.saved who r) := by
  cases who with
  | none => exact ⟨rfl, rfl, rfl, rfl⟩
  | some p =>
    refine ⟨?_, rfl, rfl, rfl⟩
    show (k.tasks.modify p fun t => { t with ctx := .saved r }).map Task.holdings = _
    exact map_modify_of_eq _ _ fun t => rfl

theorem Switched.trans {k₁ k₂ k₃ : Machine} (h : Switched k₁ k₂) (h' : Switched k₂ k₃) :
    Switched k₁ k₃ :=
  ⟨h'.holdings.trans h.holdings, h'.ipc.trans h.ipc, h'.objects.trans h.objects,
    h'.log.trans h.log⟩

theorem switched_entered (prev : Option ℕ) (next : ℕ) (t : Task) (r : Resume) :
    Switched k (k.entered prev next t r) := by
  refine ⟨?_, rfl, rfl, rfl⟩
  show (k.tasks.modify next fun t => { t with state := .running, ctx := .loaded }).map _ = _
  exact map_modify_of_eq _ _ fun t => rfl

theorem dispatch_spec {prev : Option ℕ} {next : ℕ} {r : Resume} {t : Task}
    (hs : (k.saved prev r).Settled) (hl : k.loaded = none)
    (hb : (k.saved prev r).bootstrap = .saved .inStart)
    (hprev : ∀ i, prev = some i → i < k.tasks.length ∧ i ≠ next)
    (ht : k.tasks[next]? = some t) (hr : t.state = .ready) :
    ∃ k', k.dispatch prev r next = .ok k' ∧ k'.Coherent ∧ k'.net = (k.saved prev r).net ∧
      Switched k k' := by
  have ht' : (k.saved prev r).tasks[next]? = some t := by
    cases prev with
    | none => exact ht
    | some p => rw [saved_getElem?_ne r (hprev p rfl).2, ht]
  have hl' : (k.saved prev r).loaded = none := by cases prev <;> exact hl
  have hlen : (k.saved prev r).tasks.length = k.tasks.length := by
    cases prev <;> simp [Machine.saved]
  have hok := hs.ok next t ht'
  simp only [Task.Ok, hr] at hok
  obtain ⟨r', hctx, -⟩ := hok
  obtain ⟨hc, hnet⟩ := hs.entered prev hl' hb
    (fun i hi => hlen ▸ (hprev i hi).1) ht' hr hctx
  exact ⟨_, dispatch_eq hprev ht hctx, hc, hnet,
    (switched_saved prev r).trans (switched_entered prev next t r')⟩

theorem switchAway_spec {p : ℕ} {r : Resume} {x : Task} (hs : (k.saved (some p) r).Settled)
    (hl : k.loaded = none) (hb : k.bootstrap = .saved .inStart) (hx : k.tasks[p]? = some x)
    (hnr : x.state ≠ .ready) :
    ∃ k', k.switchAway p r = .ok k' ∧ k'.Coherent ∧ k'.net = (k.saved (some p) r).net ∧
      Switched k k' := by
  unfold switchAway
  cases hpick : k.pickNext p with
  | some next =>
    obtain ⟨t, ht, hr⟩ := pickNext_some hpick
    have hne : p ≠ next := by
      intro hpn
      rw [← hpn, hx] at ht
      exact hnr (Option.some.inj ht ▸ hr)
    refine dispatch_spec hs hl hb ?_ ht hr
    intro i hi
    obtain rfl := Option.some.inj hi
    exact ⟨lt_of_getElem? hx, hne⟩
  | none =>
    have hp := lt_of_getElem? hx
    obtain ⟨hc, hnet⟩ := hs.idled p hl (by simpa [Machine.saved] using hp)
    have hidled : Switched (k.saved (some p) r) ((k.saved (some p) r).idled p .inStart) :=
      ⟨rfl, rfl, rfl, rfl⟩
    exact ⟨_, toBootstrap_eq hp hb, hc, hnet, (switched_saved (some p) r).trans hidled⟩

/-! ### Bookkeeping that the scheduler does not see -/

/-- The two machines look alike to the scheduler. -/
structure SameSched (k k' : Machine) : Prop where
  tasks : k'.tasks.map Task.core = k.tasks.map Task.core
  bootstrap : k'.bootstrap = k.bootstrap
  current : k'.current = k.current
  prev : k'.prev = k.prev
  loaded : k'.loaded = k.loaded

theorem getElem?_of_core {l l' : List Task} (h : l'.map Task.core = l.map Task.core) {i : ℕ}
    {t' : Task} (ht : l'[i]? = some t') : ∃ t, l[i]? = some t ∧ t'.core = t.core := by
  have hi := congrArg (fun m => m[i]?) h
  simp only [List.getElem?_map, ht, Option.map_some] at hi
  obtain ⟨t, hl, heq⟩ := Option.map_eq_some_iff.mp hi.symm
  exact ⟨t, hl, heq.symm⟩

theorem Ok.of_core {t t' : Task} {l : Option Resume} (h : t'.core = t.core) (ht : t.Ok l) :
    t'.Ok l := by
  obtain ⟨hst, hctx, hm, hre⟩ :
      t'.state = t.state ∧ t'.ctx = t.ctx ∧ t'.mailbox = t.mailbox ∧ t'.reach = t.reach := by
    simpa [Task.core] using h
  have hfits : ∀ r, t.Fits r → t'.Fits r := fun r => Task.fits_of_reach hre
  cases hs : t.state with
  | ready =>
    simp only [Task.Ok, hst, hctx, hm, hs] at ht ⊢
    obtain ⟨r, hr, hof, hmail, hf⟩ := ht
    exact ⟨r, hr, hof, hmail, hfits r hf⟩
  | running =>
    simp only [Task.Ok, hst, hctx, hm, hs] at ht ⊢
    exact ⟨ht.1, ht.2.1, fun r hr => hfits r (ht.2.2 r hr)⟩
  | blocked =>
    simp only [Task.Ok, hst, hctx, hm, hs] at ht ⊢
    obtain ⟨r, hr, hp, hmail, hf⟩ := ht
    exact ⟨r, hr, hp, hmail, hfits r hf⟩
  | dead => simpa only [Task.Ok, hst, hm, hs] using ht

theorem phase_of_core {t t' : Task} (l : Option Resume) (h : t'.core = t.core) :
    t'.phase l = t.phase l := by
  obtain ⟨hst, hctx, hm, -⟩ :
      t'.state = t.state ∧ t'.ctx = t.ctx ∧ t'.mailbox = t.mailbox ∧ t'.reach = t.reach := by
    simpa [Task.core] using h
  simp only [Task.phase, hst, hctx, hm]

theorem SameSched.length {k' : Machine} (h : SameSched k k') :
    k'.tasks.length = k.tasks.length := by
  simpa using congrArg List.length h.tasks

theorem SameSched.coherent {k' : Machine} (h : SameSched k k') (hc : k.Coherent) :
    k'.Coherent := by
  constructor
  · intro i t' ht'
    obtain ⟨t, ht, hcore⟩ := getElem?_of_core h.tasks ht'
    exact h.loaded ▸ Ok.of_core hcore (hc.ok i t ht)
  · intro i t' ht'
    obtain ⟨t, ht, hcore⟩ := getElem?_of_core h.tasks ht'
    have hst : t'.state = t.state := congrArg Prod.fst hcore
    rw [hst, h.current]
    exact hc.running i t ht
  · rw [h.current, h.length]
    exact hc.current
  · rw [h.current, h.loaded]
    exact hc.loaded
  · rw [h.prev, h.loaded, h.length]
    exact hc.prev
  · rw [h.current, h.bootstrap]
    exact hc.bootstrap

theorem SameSched.phase {k' : Machine} (h : SameSched k k') : k'.phase = k.phase := by
  funext i
  have hi := congrArg (fun m => m[i]?) h.tasks
  simp only [List.getElem?_map] at hi
  cases ht' : k'.tasks[i]? with
  | none =>
    have ht : k.tasks[i]? = none := by simpa [ht'] using hi.symm
    simp [Machine.phase, ht, ht']
  | some t' =>
    obtain ⟨t, ht, hcore⟩ := getElem?_of_core h.tasks ht'
    simp only [Machine.phase, ht, ht', h.loaded, phase_of_core _ hcore]

/-! ### One task at a time -/

section

variable {i : ℕ} {x : Task}

theorem phase_eq (hx : k.tasks[i]? = some x) : k.phase i = x.phase k.loaded := by
  simp [Machine.phase, hx]

/-- Rewriting one task keeps the machine coherent when the task still fits and
runs exactly if it did. -/
theorem Coherent.modify {k' : Machine} {f : Task → Task} (hc : k.Coherent)
    (hx : k.tasks[i]? = some x) (htasks : k'.tasks = k.tasks.modify i f)
    (hb : k'.bootstrap = k.bootstrap) (hcur : k'.current = k.current) (hp : k'.prev = k.prev)
    (hl : k'.loaded = k.loaded) (hok : (f x).Ok k.loaded)
    (hrun : (f x).state = .running ↔ x.state = .running) : k'.Coherent := by
  have hlen : k'.tasks.length = k.tasks.length := by simp [htasks]
  constructor
  · intro j y hy
    rw [htasks] at hy
    rw [hl]
    by_cases hij : i = j
    · subst hij
      obtain rfl : f x = y := by simpa [hx] using hy
      exact hok
    · exact hc.ok j y (by simpa [hij] using hy)
  · intro j y hy
    rw [htasks] at hy
    rw [hcur]
    by_cases hij : i = j
    · subst hij
      obtain rfl : f x = y := by simpa [hx] using hy
      exact hrun.trans (hc.running i x hx)
    · exact hc.running j y (by simpa [hij] using hy)
  · rw [hcur, hlen]
    exact hc.current
  · rw [hcur, hl]
    exact hc.loaded
  · rw [hp, hl, hlen]
    exact hc.prev
  · rw [hcur, hb]
    exact hc.bootstrap

theorem phase_modify (k' : Machine) {f : Task → Task} (hx : k.tasks[i]? = some x)
    (htasks : k'.tasks = k.tasks.modify i f) (hl : k'.loaded = k.loaded) :
    k'.phase = Function.update k.phase i ((f x).phase k.loaded) := by
  funext j
  by_cases hij : i = j
  · subst hij
    simp [Machine.phase, htasks, hx, hl]
  · rw [Function.update_of_ne (Ne.symm hij)]
    simp [Machine.phase, htasks, hij, hl]

/-- Only a parked task is waiting. -/
theorem phase_waiting {p : Phase (Fin numEndpoints) KMessage} (h : k.phase i = p)
    (hno : ∀ (m : Option KMessage) (r : Resume), r.phase m ≠ p) (hfree : p ≠ .free)
    (hgone : p ≠ .gone) (habs : p ≠ .absent) :
    ∃ x r, k.tasks[i]? = some x ∧ x.state = .blocked ∧ x.ctx = .saved r ∧ r.waits = p := by
  unfold Machine.phase at h
  split at h
  · rename_i x hx
    unfold Task.phase at h
    split at h
    · exact absurd h.symm hgone
    · cases hl : k.loaded with
      | none => exact absurd (by simpa [hl] using h.symm) hfree
      | some r => exact absurd (by simpa [hl] using h) (hno x.mailbox r)
    · exact absurd h (hno _ _)
    · rename_i r hst hctx
      exact ⟨x, r, hx, hst, hctx, h⟩
    · exact absurd h.symm hfree
  · exact absurd h.symm habs

theorem phase_receiving {ep : Fin numEndpoints} (h : k.phase i = .receiving ep) :
    ∃ x c, k.tasks[i]? = some x ∧ x.state = .blocked ∧ x.ctx = .saved (.recvParked ep c) := by
  obtain ⟨x, r, hx, hst, hctx, hr⟩ := phase_waiting h
    (by intro m r; cases r <;> cases m <;> simp [Resume.phase]) (by simp) (by simp)
    (by simp)
  cases r with
  | recvParked e c =>
    obtain rfl : e = ep := by simpa [Resume.waits] using hr
    exact ⟨x, c, hx, hst, hctx⟩
  | _ => cases hr

theorem phase_sending {ep : Fin numEndpoints} (h : k.phase i = .sending ep) :
    ∃ x c, k.tasks[i]? = some x ∧ x.state = .blocked ∧ x.ctx = .saved (.sendParked ep c) := by
  obtain ⟨x, r, hx, hst, hctx, hr⟩ := phase_waiting h
    (by intro m r; cases r <;> cases m <;> simp [Resume.phase]) (by simp) (by simp)
    (by simp)
  cases r with
  | sendParked e c =>
    obtain rfl : e = ep := by simpa [Resume.waits] using hr
    exact ⟨x, c, hx, hst, hctx⟩
  | _ => cases hr

/-- Dead is the phase nobody leaves. -/
theorem phase_eq_gone : k.phase i = .gone ↔ ∃ x, k.tasks[i]? = some x ∧ x.state = .dead := by
  have hresume : ∀ (m : Option KMessage) (r : Resume), r.phase m ≠ .gone := by
    intro m r
    cases r <;> cases m <;> simp [Resume.phase]
  have hwaits : ∀ r : Resume, r.waits ≠ .gone := by
    intro r
    cases r <;> simp [Resume.waits]
  cases hx : k.tasks[i]? with
  | none => simp [Machine.phase, hx]
  | some x =>
    rw [phase_eq hx]
    cases hst : x.state with
    | dead => simp [Task.phase, hst]
    | running => cases hl : k.loaded <;> simp [Task.phase, hst, hresume]
    | ready => cases hctx : x.ctx <;> simp [Task.phase, hst, hctx, hresume]
    | blocked => cases hctx : x.ctx <;> simp [Task.phase, hst, hctx, hwaits]

/-- The current task, in its own code: it runs, and no message waits for it. -/
theorem Coherent.current_task (hc : k.Coherent) (hk : k.current = some i) (hl : k.loaded = none) :
    ∃ x, k.tasks[i]? = some x ∧ x.state = .running ∧ x.mailbox = none ∧ k.phase i = .free := by
  have hlt := hc.current i hk
  have hx := List.getElem?_eq_getElem hlt
  have hrun := (hc.running i _ hx).mpr hk
  have hok := hc.ok i _ hx
  simp only [Task.Ok, hrun, hl, Option.map_none, Option.getD_none] at hok
  refine ⟨_, hx, hrun, by simpa using hok.2.1, ?_⟩
  rw [phase_eq hx, hl]
  simp [Task.phase, hrun]

end

end Machine

end StarOs.Kernel
