import StarOs.Library.Round
import StarOs.Kernel.Tenure

/-! Who runs next. Whatever takes the current task off the core, its successor is the one
`pick_next` finds from there, so a ready task gets closer at every switch, and nobody is
dispatched twice before it. -/

namespace StarOs.Kernel

open Library Library.Round

/-! ### On the stage -/

namespace Stage

variable {s s' : Stage} {p t : ℕ} {y : Seat}

/-- A loaded continuation leaves its seat current. -/
theorem Step.current_loaded (h : Step s s') (hl : s.loaded ≠ none) (hp : s.current = some p) :
    s'.current = some p := by
  cases h with
  | quiet => exact hp
  | resume hr hcur => exact (settle_current s).trans hp
  | again hr hcur hy hready hctx => exact absurd (hcur.symm.trans hp) (by simp)
  | stop hr hcur => exact absurd (hcur.symm.trans hp) (by simp)
  | wake hl' => exact absurd hl' hl
  | join hl' => exact absurd hl' hl
  | switch hl' => exact absurd hl' hl
  | idle hl' => exact absurd hl' hl
  | start hl' => exact absurd hl' hl
  | nothing hl' => exact absurd hl' hl

/-- A ready seat stays as it is until it is entered. -/
theorem Step.waiting (h : Step s s') (hy : s.seats[t]? = some y) (hready : y.state = .ready) :
    s'.current = some t ∨ s'.seats[t]? = some y := by
  obtain ⟨z, hz, hf⟩ := h.fate hy
  cases hf with
  | kept => exact .inr hz
  | woken hb => cases hready.symm.trans hb
  | left _ _ hrun => cases hready.symm.trans hrun
  | entered _ hcur => exact .inl hcur
  | released hd => cases hready.symm.trans hd

/-- Seats are added, and not while the core is handed on. -/
theorem Step.seats_length (h : Step s s') : s.seats.length ≤ s'.seats.length ∧
    (s.current = some p → s'.current ≠ some p → s'.seats.length = s.seats.length) := by
  have hsame : s'.seats.length = s.seats.length → s.seats.length ≤ s'.seats.length ∧
      (s.current = some p → s'.current ≠ some p → s'.seats.length = s.seats.length) :=
    fun h => ⟨h.ge, fun _ _ => h⟩
  cases h with
  | quiet => exact hsame rfl
  | wake => exact hsame (List.length_modify _ _ _)
  | join hl hx => exact ⟨by simp, fun hp hne => absurd hp hne⟩
  | switch => exact hsame (by simp [enter, leave])
  | idle => exact hsame (by simp [Stage.idle, leave])
  | start => exact hsame (by simp [enter, board, adopt])
  | nothing => exact hsame rfl
  | resume => exact hsame (settle_length s)
  | again => exact hsame (by simp [enter, board, settle_length, home])
  | stop => exact hsame (settle_length s.home)

end Stage

namespace Machine

variable {k k' : Machine} {p t n : ℕ} {x : Task} {r : Resume} {heap : Heap}

/-! ### The pick -/

theorem pickNext_scan (hp : p < k.tasks.length) :
    k.pickNext p = scan k.tasks.length p k.isReady := by
  rw [pickNext, if_neg (by omega)]
  rfl

theorem pickNext_congr {k₁ : Machine} (hlen : k₁.tasks.length = k.tasks.length)
    (hready : ∀ i, k₁.isReady i = k.isReady i) : k₁.pickNext p = k.pickNext p := by
  simp only [pickNext, hlen, funext hready]

/-- The pick sees of a task only whether it is ready. -/
theorem pickNext_stage {k₁ : Machine} (h : k₁.stage = k.stage) : k₁.pickNext p = k.pickNext p := by
  have hseats : k₁.tasks.map Task.seat = k.tasks.map Task.seat := congrArg Stage.seats h
  have hlen := congrArg List.length hseats
  rw [List.length_map, List.length_map] at hlen
  refine pickNext_congr hlen fun i => ?_
  have hi := congrArg (fun l : List Seat => (l[i]?).map Seat.state) hseats
  simp only [List.getElem?_map, Option.map_map] at hi
  unfold isReady
  cases h₁ : k₁.tasks[i]? <;> cases h₀ : k.tasks[i]? <;> simp_all [Task.seat]

/-- Marking the running task does not change who is picked. -/
theorem pickNext_mark {f : Task → Task} (hx : k.tasks[p]? = some x) (hrun : x.state = .running)
    (hf : (f x).state ≠ .ready) (s : Stats) :
    ({ k with tasks := k.tasks.modify p f, stats := s } : Machine).pickNext p = k.pickNext p := by
  refine pickNext_congr (List.length_modify _ _ _) fun i => ?_
  by_cases hi : p = i
  · subst hi
    simp [isReady, hx, hrun, hf]
  · simp [isReady, hi]

/-- `pick_next` goes round all the tasks. -/
theorem pickNext_none {i : ℕ} (hp : p < k.tasks.length) (h : k.pickNext p = none)
    (hx : k.tasks[i]? = some x) : x.state ≠ .ready := by
  intro hready
  rw [pickNext_scan hp] at h
  have hno := scan_none h (lt_of_getElem? hx)
  rw [isReady_iff.mpr ⟨x, hx, hready⟩] at hno
  cases hno

/-! ### The switch -/

theorem contextSwitch_current {prev next : Option ℕ}
    (h : k.contextSwitch prev r next = .ok k') : k'.current = k.current := by
  obtain ⟨k₁, hsave, h⟩ := bind_eq_ok h
  have hsaved : k₁.current = k.current := by
    cases prev with
    | none =>
      obtain rfl := Except.ok.inj hsave
      rfl
    | some i =>
      obtain ⟨-, rfl⟩ := onTask_ok hsave
      rfl
  rw [← hsaved]
  cases next with
  | none =>
    simp only [loadContext] at h
    split at h
    · obtain rfl := Except.ok.inj h
      rfl
    · cases h
  | some i =>
    obtain ⟨y, -, h⟩ := bind_eq_ok h
    split at h
    · obtain ⟨k₂, hk₂, h⟩ := bind_eq_ok h
      obtain ⟨-, rfl⟩ := onTask_ok hk₂
      obtain rfl := Except.ok.inj h
      rfl
    · cases h

theorem dispatch_current {prev : Option ℕ} (h : k.dispatch prev r n = .ok k') :
    k'.current = some n := by
  obtain ⟨k₁, hk₁, h⟩ := bind_eq_ok h
  obtain ⟨y, -, h⟩ := bind_eq_ok h
  rw [contextSwitch_current h, enter_eq]
  rfl

theorem switchAway_current (h : k.switchAway p r = .ok k') : k'.current = k.pickNext p := by
  unfold switchAway at h
  cases hpick : k.pickNext p with
  | some n =>
    rw [hpick] at h
    exact dispatch_current h
  | none =>
    rw [hpick] at h
    simp only [toBootstrap, enter_none_eq] at h
    exact contextSwitch_current h

/-- The current task left the core to the one `pick_next` finds from it. -/
def Picks (k k' : Machine) : Prop := ∃ p, k.current = some p ∧ k'.current = k.pickNext p

theorem parkAndSwitch_picks (hc : k.Coherent) (h : k.parkAndSwitch r = .ok k') : k.Picks k' := by
  unfold parkAndSwitch at h
  cases hp : k.current with
  | none =>
    rw [hp] at h
    cases h
  | some p =>
    rw [hp] at h
    obtain ⟨k₁, hk₁, h⟩ := bind_eq_ok h
    obtain ⟨-, rfl⟩ := onTask_ok hk₁
    obtain ⟨x, hx, hrun⟩ := hc.current_seat hp
    refine ⟨p, hp, (switchAway_current h).trans ?_⟩
    exact pickNext_mark hx hrun (by simp) _

theorem reschedule_picks (h : k.reschedule r = .ok (some k')) : k.Picks k' := by
  unfold reschedule at h
  cases hp : k.current with
  | none =>
    rw [hp] at h
    cases h
  | some p =>
    rw [hp] at h
    dsimp only at h
    cases hpick : k.pickNext p with
    | none =>
      rw [hpick] at h
      cases h
    | some n =>
      rw [hpick] at h
      obtain ⟨k₁, -, h⟩ := bind_eq_ok h
      obtain ⟨k₂, hk₂, h⟩ := bind_eq_ok h
      obtain rfl := Option.some.inj (Except.ok.inj h)
      exact ⟨p, hp, (dispatch_current hk₂).trans hpick.symm⟩

theorem exit_picks (hc : k.Coherent) (hq : k.net.Queued ringCap) (hl : k.loaded = none)
    (h : k.exit = .ok k') : k.Picks k' := by
  obtain ⟨p, hp, h⟩ := bind_eq_ok h
  have hp := currentId_ok hp
  obtain ⟨x, hx, hrun, -, hfree⟩ := hc.current_task hp hl
  rw [forgetTask_of_free hq hfree] at h
  obtain ⟨k₁, hk₁, h⟩ := bind_eq_ok h
  obtain ⟨-, rfl⟩ := onTask_ok hk₁
  refine ⟨p, hp, (switchAway_current h).trans ?_⟩
  exact pickNext_mark hx hrun (by simp) k.stats

/-! ### The acts -/

/-- Whoever is on the core stays, or leaves it to the one `pick_next` finds. -/
def Follows (k k' : Machine) : Prop := k'.current = k.current ∨ k.Picks k'

theorem Follows.of_stage {k₁ : Machine} (h : k₁.Follows k') (hs : k₁.stage = k.stage) :
    k.Follows k' := by
  have hcur : k₁.current = k.current := congrArg Stage.current hs
  obtain hsame | ⟨p, hp, hpick⟩ := h
  · exact .inl (hsame.trans hcur)
  · exact .inr ⟨p, hcur.symm.trans hp, hpick.trans (pickNext_stage hs)⟩

theorem follows_of_seen (hs : k'.seen = k.seen) : k.Follows k' :=
  .inl (congrArg (fun v : Stage × Wire => v.1.current) hs)

theorem unblock_current {w : ℕ} (h : k.unblock w = .ok k') : k'.current = k.current := by
  obtain ⟨-, hs | ⟨y, -, -, hs⟩⟩ := unblock_ok h
  · exact congrArg Stage.current hs
  · exact congrArg Stage.current hs

theorem deliver_current {w : ℕ} {km : KMessage} (h : k.deliver w km = .ok k') :
    k'.current = k.current := by
  obtain ⟨k₁, hk₁, h⟩ := bind_eq_ok h
  obtain ⟨-, rfl⟩ := onTask_ok hk₁
  have hcur := unblock_current h
  exact hcur

section

variable {ep : Fin numEndpoints} {km : KMessage} {caller : Caller}

theorem sendOn_follows (hc : k.Coherent) (h : k.sendOn ep km caller = .ok k') : k.Follows k' := by
  obtain ⟨me, -, k₁, h⟩ := sendOn_ok h
  split at h
  · obtain ⟨hr, k₂, hk₂, hs⟩ := h
    have hcur : k'.current = k₂.current := congrArg (fun v : Stage × Wire => v.1.current) hs
    have hdel : k₁.Follows k' := .inl (hcur.trans (deliver_current hk₂))
    exact hdel.of_stage hr.stage
  · obtain ⟨hr, hs⟩ := h
    exact (follows_of_seen hs).of_stage hr.stage
  · obtain ⟨hr, hpark⟩ := h
    have hpick : k₁.Follows k' := .inr (parkAndSwitch_picks (hr.sameSched.coherent hc) hpark)
    exact hpick.of_stage hr.stage
  · obtain ⟨hr, hs⟩ := h
    exact (follows_of_seen hs).of_stage hr.stage

theorem send_follows {ep : ℕ} (hc : k.Coherent) (h : k.send ep km caller = .ok k') :
    k.Follows k' := by
  unfold send at h
  split at h
  · exact sendOn_follows hc h
  · exact follows_of_seen (returnSend_seen h)

theorem recvOn_follows (hc : k.Coherent) (h : k.recvOn heap ep caller = .ok k') :
    k.Follows k' := by
  obtain ⟨me, -, k₁, h⟩ := recvOn_ok h
  split at h
  · obtain ⟨hr, hs⟩ := h
    exact (follows_of_seen hs).of_stage hr.stage
  · obtain ⟨hr, k₂, hk₂, hs⟩ := h
    have hcur : k'.current = k₂.current := congrArg (fun v : Stage × Wire => v.1.current) hs
    have hwake : k₁.Follows k' := .inl (hcur.trans (unblock_current hk₂))
    exact hwake.of_stage hr.stage
  · obtain ⟨hr, hpark⟩ := h
    have hpick : k₁.Follows k' := .inr (parkAndSwitch_picks (hr.sameSched.coherent hc) hpark)
    exact hpick.of_stage hr.stage
  · obtain ⟨hr, hs⟩ := h
    exact (follows_of_seen hs).of_stage hr.stage

theorem recv_follows {ep : ℕ} (hc : k.Coherent) (h : k.recv heap ep caller = .ok k') :
    k.Follows k' := by
  unfold recv at h
  split at h
  · exact recvOn_follows hc h
  · exact follows_of_seen (returnRecv_seen h)

end

theorem onSyscall_follows {frame : Frame} (hc : k.Coherent) (hq : k.net.Queued ringCap)
    (hl : k.loaded = none) (hk : k.current = some t) (h : k.onSyscall heap frame = .ok k') :
    k.Follows k' := by
  obtain hs | ⟨k₁, he, h⟩ := onSyscall_ok h
  · exact follows_of_seen hs
  · have hc₁ := he.sched.coherent hc
    have hl₁ := he.sched.loaded.trans hl
    have hq₁ := he.queued hq
    refine Follows.of_stage ?_ he.stage
    obtain h | h | h | h := h
    · exact .inr (reschedule_picks h)
    · exact .inr (exit_picks hc₁ hq₁ hl₁ h)
    · obtain hs | ⟨ep, km, via, h⟩ := sysSend_ok h
      · exact follows_of_seen hs
      · exact send_follows hc₁ h
    · obtain hs | ⟨k₂, ep, via, hk₂, h⟩ := sysRecv_ok h
      · exact follows_of_seen hs
      · have hown := writeUserMsg_sameSched hc₁ (he.sched.current.trans hk) hk₂
        exact (recv_follows (hown.coherent hc₁) h).of_stage
          (congrArg Prod.fst (writeUserMsg_seen hk₂))

/-- A continuation that settles leaves its task on the core. -/
theorem resume_current (hc : k.Coherent) (hp : k.current = some p) (h : k.resume heap = .ok k') :
    k'.current = some p := by
  have hloaded : k.stage.loaded ≠ none := by
    intro hl
    rw [resume, show k.loaded = none from hl] at h
    cases h
  exact (resume_step hc h).1.current_loaded hloaded hp

/-- Whatever takes the current task off the core, `pick_next` finds its successor. -/
theorem Move.follows {l : Heap × Act} (hc : k.Coherent) (hq : k.net.Queued ringCap)
    (hp : k.current = some p) (h : k.Move l k') : k.Follows k' := by
  obtain ⟨heap, act⟩ := l
  obtain ⟨he, h⟩ := h
  cases act with
  | spawn stack space grants =>
    obtain rfl := Except.ok.inj h
    refine .inl ?_
    unfold spawnUser
    split
    · rfl
    · cases stack <;> rfl
  | start => exact absurd (hp.symm.trans he.2) (by simp)
  | timer =>
    simp only [step, onIrqEpilogue, requestResched, if_true] at h
    obtain ⟨o, ho, h⟩ := bind_eq_ok h
    cases o with
    | none =>
      obtain rfl := Except.ok.inj h
      exact .inl rfl
    | some k₂ =>
      obtain rfl := Except.ok.inj h
      have hpick : Follows { k with needResched := false } k₂ := .inr (reschedule_picks ho)
      exact hpick.of_stage rfl
  | syscall frame =>
    obtain ⟨hl, t, x, hk, -⟩ := he
    exact onSyscall_follows hc hq hl hk h
  | send ep km => exact send_follows hc h
  | recv ep => exact recv_follows hc h
  | exit => exact .inr (exit_picks hc hq he.1 h)
  | store addr value =>
    simp only [step] at h
    split at h
    · cases h
    · obtain ⟨-, rfl⟩ := onTask_ok h
      exact .inl rfl
  | create object =>
    simp only [step] at h
    split at h <;> (obtain rfl := Except.ok.inj h; exact .inl rfl)
  | revoke r =>
    simp only [step] at h
    obtain rfl := Except.ok.inj h
    split <;> exact .inl rfl
  | arm =>
    obtain rfl := Except.ok.inj h
    exact .inl rfl
  | resume => exact .inl ((resume_current hc hp h).trans hp.symm)

/-! ### Waiting for a turn -/

/-- The slot picked is another one, and closer to every task that is ready. -/
theorem Picks.closer (hc : k.Coherent) (h : k.Picks k') (ht : k.isReady t = true) :
    ∃ c d, k.current = some c ∧ k'.current = some d ∧ d ≠ c ∧ c ≠ t ∧ d < k.tasks.length ∧
      distance k.tasks.length d t < distance k.tasks.length c t := by
  obtain ⟨c, hcur, hpick⟩ := h
  obtain ⟨x, hx, hrun⟩ := hc.current_seat hcur
  obtain ⟨y, hy, hready⟩ := isReady_iff.mp ht
  have hne : ∀ i z, k.tasks[i]? = some z → z.state = .ready → i ≠ c := by
    rintro i z hz hzr rfl
    rw [hz] at hx
    rw [← Option.some.inj hx, hzr] at hrun
    cases hrun
  have hlt := lt_of_getElem? hx
  cases hd : k.pickNext c with
  | none => exact absurd hready (pickNext_none hlt hd hy)
  | some d =>
    obtain ⟨z, hz, hzr⟩ := pickNext_some hd
    have hct : c ≠ t := (hne t y hy hready).symm
    rw [pickNext_scan hlt] at hd
    obtain ⟨hdn, hcloser⟩ := scan_closer hlt (lt_of_getElem? hy) hct ht hd
    exact ⟨c, d, hcur, by rw [hpick, pickNext_scan hlt, hd], hne d z hz hzr, hct, hdn, hcloser⟩

/-- Who was dispatched by an act. -/
def turn (k k' : Machine) : List ℕ := if k'.current = k.current then [] else k'.current.toList

/-- Runs, with the tasks dispatched on the way, the last first. -/
inductive Dispatches (k : Machine) : List ℕ → Machine → Prop where
  | refl : Dispatches k [] k
  | tail {ds : List ℕ} {k' k'' : Machine} {l : Heap × Act} (h : Dispatches k ds k')
      (hm : k'.Move l k'') : Dispatches k (turn k' k'' ++ ds) k''

/-- Task `t` is waiting, and `seen` are the tasks that have had the core since, the current
one first: each was passed on the way round to `t`. -/
structure Waiting (t : ℕ) (seen : List ℕ) (k : Machine) : Prop where
  ready : k.isReady t = true
  head : seen.head? = k.current
  order : seen.Pairwise fun d c => Ahead t c d
  slots : ∀ c ∈ seen, c ≠ t ∧ c < k.tasks.length

section

variable {l : Heap × Act} {seen ds : List ℕ}

theorem Coherent.not_ready (hc : k.Coherent) (hp : k.current = some p) : k.isReady p = false := by
  obtain ⟨x, hx, hrun⟩ := hc.current_seat hp
  simp [isReady, hx, hrun]

theorem waiting_start (hc : k.Coherent) (ht : k.isReady t = true) :
    Waiting t k.current.toList k := by
  refine ⟨ht, ?_, ?_, ?_⟩
  · cases k.current <;> rfl
  · cases k.current with
    | none => exact List.Pairwise.nil
    | some c => exact List.pairwise_singleton _ _
  · intro c hcur
    have hcur : k.current = some c := Option.mem_toList.mp hcur
    refine ⟨?_, hc.current c hcur⟩
    rintro rfl
    rw [hc.not_ready hcur] at ht
    cases ht

/-- Who keeps the core, or loses it to a closer task. -/
theorem Reachable.closer (hr : k.Reachable) (ht : k.isReady t = true) (hm : k.Move l k')
    (hp : k.current = some p) (hne : k'.current ≠ some p) :
    ∃ d, k'.current = some d ∧ k'.tasks.length = k.tasks.length ∧ d < k.tasks.length ∧ p ≠ t ∧
      distance k.tasks.length d t < distance k.tasks.length p t := by
  obtain ⟨hc, hq, -⟩ := hr.sound
  obtain hsame | hpick := hm.follows hc hq hp
  · exact absurd (hsame.trans hp) hne
  · obtain ⟨c, d, hcur, hcur', -, hct, hd, hcloser⟩ := hpick.closer hc ht
    obtain rfl := Option.some.inj (hp.symm.trans hcur)
    have hlen := (hm.staged hc hq).seats_length.2 hp hne
    simp only [stage, List.length_map] at hlen
    exact ⟨d, hcur', hlen, hd, hct, hcloser⟩

theorem Waiting.move (hr : k.Reachable) (h : Waiting t seen k) (hm : k.Move l k')
    (hnot : t ∉ turn k k') : Waiting t (turn k k' ++ seen) k' := by
  obtain ⟨hc, hq, -⟩ := hr.sound
  have hc' := (hr.move hm).sound.1
  have hstep := hm.staged hc hq
  obtain ⟨y, hy, hready⟩ := isReady_iff.mp h.ready
  have hturn : k'.current ≠ some t := by
    intro hcur
    refine hnot ?_
    have hne : k'.current ≠ k.current := by
      intro hsame
      have hno := hc.not_ready (hsame.symm.trans hcur)
      rw [h.ready] at hno
      cases hno
    rw [turn, if_neg hne, hcur]
    exact List.mem_singleton.mpr rfl
  have hready' : k'.isReady t = true := by
    obtain hcur | hseat := hstep.waiting (stage_seat hy) hready
    · exact absurd hcur hturn
    · obtain ⟨z, hz, hzs⟩ := of_stage_seat hseat
      refine isReady_iff.mpr ⟨z, hz, ?_⟩
      exact (congrArg Seat.state hzs).trans hready
  have hlen : k.tasks.length ≤ k'.tasks.length := by
    have hle := (hstep.seats_length (p := 0)).1
    simpa only [stage, List.length_map] using hle
  have hold : ∀ c ∈ seen, c ≠ t ∧ c < k'.tasks.length :=
    fun c hmem => ⟨(h.slots c hmem).1, Nat.lt_of_lt_of_le (h.slots c hmem).2 hlen⟩
  by_cases hsame : k'.current = k.current
  · rw [turn, if_pos hsame, List.nil_append]
    exact ⟨hready', h.head.trans hsame.symm, h.order, hold⟩
  · cases hp : k.current with
    | none =>
      -- nobody had the core: `start` gives it to the first
      have hnone : seen = [] := List.head?_eq_none_iff.mp (h.head.trans hp)
      cases hcur : k'.current with
      | none => exact absurd (hcur.trans hp.symm) hsame
      | some d =>
        rw [turn, if_neg hsame, hcur, hnone]
        refine ⟨hready', hcur.symm, List.pairwise_singleton _ _, fun c hmem => ?_⟩
        obtain rfl := List.mem_singleton.mp hmem
        exact ⟨fun hct => hturn (hct ▸ hcur), hc'.current c hcur⟩
    | some p =>
      obtain ⟨d, hcur, hsize, hd, -, hcloser⟩ := hr.closer h.ready hm hp (hp ▸ hsame)
      have hdt : d ≠ t := fun hct => hturn (hct ▸ hcur)
      obtain ⟨rest, rfl⟩ : ∃ rest, seen = p :: rest := by
        have hhead := h.head.trans hp
        cases seen with
        | nil => cases hhead
        | cons q rest => exact ⟨rest, by rw [Option.some.inj hhead]⟩
      have hpt := h.slots p List.mem_cons_self
      have hahead : Ahead t p d :=
        ahead_of_closer hpt.2 hd (lt_of_getElem? hy) hdt hcloser
      rw [turn, if_neg hsame, hcur]
      refine ⟨hready', hcur.symm, ?_, ?_⟩
      · refine List.pairwise_cons.mpr ⟨fun c hmem => ?_, h.order⟩
        obtain rfl | hrest := List.mem_cons.mp hmem
        · exact hahead
        · exact ((List.pairwise_cons.mp h.order).1 c hrest).trans hahead
      · intro c hmem
        obtain rfl | hrest := List.mem_cons.mp hmem
        · exact ⟨hdt, hsize ▸ hd⟩
        · exact hold c hrest

theorem Dispatches.reachable (hr : k.Reachable) (h : Dispatches k ds k') : k'.Reachable := by
  induction h with
  | refl => exact hr
  | tail _ hm ih => exact ih.move hm

theorem Dispatches.waiting (hr : k.Reachable) (ht : k.isReady t = true) (h : Dispatches k ds k')
    (hnot : t ∉ ds) : Waiting t (ds ++ k.current.toList) k' := by
  induction h with
  | refl => exact waiting_start hr.sound.1 ht
  | tail hrun hm ih =>
    rw [List.append_assoc]
    refine (ih fun hmem => hnot (List.mem_append_right _ hmem)).move (hrun.reachable hr) hm ?_
    exact fun hmem => hnot (List.mem_append_left _ hmem)

theorem Waiting.nodup (h : Waiting t seen k) : (t :: seen).Nodup :=
  List.nodup_cons.mpr ⟨fun hmem => (h.slots t hmem).1 rfl, nodup_of_ahead h.order⟩

theorem Waiting.length_lt (h : Waiting t seen k) : seen.length < k.tasks.length := by
  obtain ⟨y, hy, -⟩ := isReady_iff.mp h.ready
  exact length_lt_of_nodup (lt_of_getElem? hy) h.nodup fun c hmem => (h.slots c hmem).2

/-- A task that is ready stays so until it is dispatched. Each switch until then is to a
slot strictly closer to it, so nobody who has had the core since gets it again, and after
one switch less than there are slots it has been dispatched; from the bootstrap context
the dispatch by `start` counts as well. -/
theorem bypasses_nobody_twice (hr : k.Reachable) (ht : k.isReady t = true)
    (hrun : Dispatches k ds k') :
    (t ∉ ds → k'.isReady t = true ∧
      (∀ (l : Heap × Act) (k'' : Machine) (c : ℕ), k'.Move l k'' → k'.current = some c →
        k''.current ≠ some c → ∃ d, k''.current = some d ∧ k''.tasks.length = k'.tasks.length ∧
          distance k'.tasks.length d t < distance k'.tasks.length c t) ∧
      (t :: (ds ++ k.current.toList)).Nodup) ∧
    (k'.tasks.length ≤ ds.length + k.current.toList.length → t ∈ ds) := by
  refine ⟨fun hnot => ?_, fun hlen => ?_⟩
  · have hw := hrun.waiting hr ht hnot
    refine ⟨hw.ready, fun l k'' c hm hp hne => ?_, hw.nodup⟩
    obtain ⟨d, hcur, hsize, -, -, hcloser⟩ := (hrun.reachable hr).closer hw.ready hm hp hne
    exact ⟨d, hcur, hsize, hcloser⟩
  · by_contra hnot
    have hlt := (hrun.waiting hr ht hnot).length_lt
    rw [List.length_append] at hlt
    omega

/-- Three tasks, the first of them running. -/
def threeTasks : List Act :=
  [.spawn (some 0x9000) none [], .spawn (some 0xa000) none [], .spawn (some 0xb000) none [],
    .start, .resume]

/-- Two preemptions: to the second task, and on to the third. -/
theorem bypasses_nobody_twice_timers :
    (after (threeTasks ++ [.timer, .resume])).isReady 2 = true ∧
    ∃ d, (after (threeTasks ++ [.timer, .resume, .timer])).current = some d ∧
      distance 3 d 2 < distance 3 1 2 := by
  have hmove : ∀ acts act, (perform ⟨8, by decide⟩ (acts ++ [act]) (init 0)).isSome →
      (after acts).Move (⟨8, by decide⟩, act) (after (acts ++ [act])) := step_after
  have hrun := (Dispatches.refl.tail (hmove threeTasks .timer (by decide))).tail
    (hmove (threeTasks ++ [.timer]) .resume (by decide))
  obtain ⟨hready, hcloser, -⟩ := (bypasses_nobody_twice (t := 2)
    (after_reachable (by decide)) (by decide) hrun).1 (by decide)
  obtain ⟨d, hcur, -, hdist⟩ := hcloser _ _ 1
    (hmove (threeTasks ++ [.timer, .resume]) .timer (by decide)) (by decide) (by decide)
  exact ⟨hready, d, hcur, hdist⟩

end

end Machine

end StarOs.Kernel
