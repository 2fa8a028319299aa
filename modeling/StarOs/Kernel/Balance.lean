import StarOs.Kernel.Tenure
import StarOs.Library.Counting
import Mathlib.Algebra.BigOperators.Group.Finset.Basic

/-! The counters balance: every park is answered by a wake-up or still stands, and
every message that was sent is received or somewhere on its way. A blocked send is
counted on the way out and a delivered receive when the receiver resumes, so what
balances is a sum over all the places a message can be in. -/

namespace StarOs.Kernel

open Library

/-- A continuation that counts its message as sent. -/
def Resume.sends : Resume → Bool
  | .sendParked _ _ => true
  | _ => false

def Context.sends : Context → Bool
  | .saved r => r.sends
  | _ => false

def Context.parks : Context → Bool
  | .saved r => r.parks
  | _ => false

/-- A seat parked in a send, or woken from one and not resumed. -/
def Seat.sends (x : Seat) : Bool :=
  match x.state with
  | .ready => x.ctx.sends
  | .blocked => x.ctx.sends
  | _ => false

namespace Stage

variable {s s' : Stage} {p i : ℕ} {x y : Seat} {st : State} {r : Resume}

/-! ### Parked seats -/

def blocked (s : Stage) : ℕ := s.seats.countP fun x => x.state = .blocked

/-- The sends that are parked, or woken and not counted yet. -/
def sends (s : Stage) : ℕ := s.seats.countP Seat.sends + tick (s.loaded.any Resume.sends)

theorem settle_countP {q : Seat → Bool} (hq : ∀ x, q x.give = q x) (s : Stage) :
    s.settle.seats.countP q = s.seats.countP q := by
  unfold settle
  cases hp : s.prev with
  | none => rfl
  | some i =>
    cases hx : s.seats[i]? with
    | none => simp [hx]
    | some x =>
      have hsame : q (if x.state = .dead then x.give else x) = q x := by
        split
        · exact hq x
        · rfl
      simpa [hx] using countP_modify_of_eq q (fun x => if x.state = .dead then x.give else x) hx hsame

theorem blocked_settle (s : Stage) : s.settle.blocked = s.blocked := settle_countP (fun _ => rfl) s

theorem blocked_wake (hy : s.seats[i]? = some y) (hb : y.state = .blocked) :
    (s.wake i).blocked + 1 = s.blocked := by
  have hcount := countP_modify (fun x => x.state = .blocked)
    (fun x : Seat => { x with state := .ready }) hy
  simpa [hb, blocked, wake] using hcount

theorem blocked_leave (hx : s.seats[p]? = some x) (hrun : x.state = .running) :
    (s.leave p st r).blocked = s.blocked + tick (st = .blocked) := by
  have hcount := countP_modify (fun x => x.state = .blocked)
    (fun x : Seat => { x with state := st, ctx := .saved r }) hx
  simpa [hrun, blocked, leave] using hcount

theorem blocked_enter (prev : Option ℕ) (r : Resume) (hy : s.seats[i]? = some y)
    (hready : y.state = .ready) : (s.enter prev i y r).blocked = s.blocked := by
  refine countP_modify_of_eq _ _ hy ?_
  simp [hready]

/-- Parks are answered, or still stand; nobody died parked. -/
structure Parked (s : Stage) : Prop where
  blocks : s.tally.blocks = s.tally.wakeups + UInt64.ofNat s.blocked
  died : s.tally.diedBlocked = 0

theorem Parked.of_eq (h : Parked s) (htally : s'.tally.blocks = s.tally.blocks)
    (hwake : s'.tally.wakeups = s.tally.wakeups) (hdied : s'.tally.diedBlocked = s.tally.diedBlocked)
    (hb : s'.blocked = s.blocked) : Parked s' := by
  constructor
  · rw [htally, hwake, hb]
    exact h.blocks
  · rw [hdied]
    exact h.died

theorem Parked.settle (h : Parked s) : Parked s.settle := by
  obtain ⟨hb, hw, hd⟩ : s.settle.tally.blocks = s.tally.blocks ∧
      s.settle.tally.wakeups = s.tally.wakeups ∧
      s.settle.tally.diedBlocked = s.tally.diedBlocked := by
    unfold Stage.settle
    split
    · exact ⟨rfl, rfl, rfl⟩
    · unfold Tally.reaped
      split <;> exact ⟨rfl, rfl, rfl⟩
  exact h.of_eq hb hw hd (blocked_settle s)

theorem Parked.leave (h : Parked s) (hx : s.seats[p]? = some x) (hrun : x.state = .running) :
    Parked (s.leave p st r) := by
  have hcount : (s.leave p st r).blocked = s.blocked + tick (st = .blocked) :=
    blocked_leave hx hrun
  have hdied : (s.leave p st r).tally.diedBlocked = s.tally.diedBlocked := by
    simp only [Stage.leave, Tally.stopped]
    split <;> rfl
  refine ⟨?_, hdied.trans h.died⟩
  rw [hcount]
  by_cases hst : st = .blocked
  · simp only [Stage.leave, Tally.stopped, hst, if_true, decide_true, tick_true, h.blocks,
      UInt64.ofNat_add]
    exact UInt64.add_assoc ..
  · simp only [Stage.leave, Tally.stopped, hst, decide_false, tick_false, Nat.add_zero]
    exact h.blocks

theorem Parked.enter (h : Parked s) (prev : Option ℕ) (r : Resume) (hy : s.seats[i]? = some y)
    (hready : y.state = .ready) : Parked (s.enter prev i y r) :=
  h.of_eq rfl rfl rfl (blocked_enter prev r hy hready)

theorem Parked.step (h : Parked s) (hstep : Step s s') : Parked s' := by
  cases hstep with
  | quiet => exact h
  | wake hl hy hb =>
    have hcount := blocked_wake hy hb
    refine ⟨?_, h.died⟩
    have hblocks := h.blocks
    rw [← hcount, UInt64.ofNat_add, UInt64.add_comm (UInt64.ofNat _), ← UInt64.add_assoc] at hblocks
    exact hblocks
  | @join z hl hfresh =>
    refine h.of_eq rfl rfl rfl ?_
    simp [blocked, hfresh.ready]
  | @switch p next z y st r r' hl hp hx hrun hst hne hy hready hctx =>
    exact (h.leave hx hrun).enter _ _ (by simp [Stage.leave, hne, hy]) hready
  | idle hl hp hx hrun => exact (h.leave hx hrun).of_eq rfl rfl rfl rfl
  | start hl hcur hy hready =>
    exact Parked.enter (s := s.adopt.board) (h.of_eq rfl rfl rfl rfl) _ _ hy hready
  | nothing => exact h.of_eq rfl rfl rfl rfl
  | resume => exact h.settle
  | @again next y r hr hcur hy hready =>
    have hhome : Parked s.home := h.of_eq rfl rfl rfl rfl
    have hset := settle_seat (s := s.home) hy
    rw [if_neg (by simp [hready])] at hset
    exact Parked.enter (s := s.home.settle.board) (hhome.settle.of_eq rfl rfl rfl rfl) _ _ hset hready
  | stop =>
    have hhome : Parked s.home := h.of_eq rfl rfl rfl rfl
    exact hhome.settle

/-! ### Sends on their way -/

theorem sends_leave (hl : s.loaded = none) (hx : s.seats[p]? = some x) (hrun : x.state = .running)
    (hst : st ≠ .running) : (s.leave p st r).sends = s.sends + tick (st ≠ .dead ∧ r.sends) := by
  have hcount := countP_modify Seat.sends
    (fun x : Seat => { x with state := st, ctx := .saved r }) hx
  have hbefore : x.sends = false := by simp [Seat.sends, hrun]
  have hafter : Seat.sends { x with state := st, ctx := .saved r } =
      (decide (st ≠ .dead ∧ r.sends)) := by
    cases st with
    | running => exact absurd rfl hst
    | ready => simp [Seat.sends, Context.sends]
    | blocked => simp [Seat.sends, Context.sends]
    | dead => simp [Seat.sends]
  rw [hbefore, hafter] at hcount
  simp only [sends, leave, hl] at hcount ⊢
  simpa using hcount

/-- The send that is loaded is the one that was saved. -/
theorem sends_enter (prev : Option ℕ) (hl : s.loaded = none) (hy : s.seats[i]? = some y)
    (hready : y.state = .ready) (hctx : y.ctx = .saved r) :
    (s.enter prev i y r).sends = s.sends := by
  have hcount := countP_modify Seat.sends
    (fun x : Seat => { x with state := .running, ctx := .loaded }) hy
  have hbefore : y.sends = r.sends := by simp [Seat.sends, Context.sends, hready, hctx]
  have hafter : Seat.sends { y with state := .running, ctx := .loaded } = false := rfl
  rw [hbefore, hafter] at hcount
  simp only [sends, enter, hl, Option.any_some, Option.any_none, tick_false] at hcount ⊢
  omega

theorem sends_settle (hr : s.loaded = some r) : s.settle.sends + tick r.sends = s.sends := by
  simp only [sends, settle_loaded, hr, settle_countP (q := Seat.sends) (fun _ => rfl),
    Option.any_some, Option.any_none, tick_false, Nat.add_zero]

theorem sends_wake (hy : s.seats[i]? = some y) (hb : y.state = .blocked) :
    (s.wake i).sends = s.sends := by
  have hcount := countP_modify_of_eq Seat.sends (fun x : Seat => { x with state := .ready }) hy ?_
  · simp only [sends, wake, hcount]
  · cases hctx : y.ctx <;> simp [Seat.sends, hb, hctx]

theorem Away.sends {p : ℕ} {s' : Stage} (h : Away s p st r s') (hl : s.loaded = none)
    (hx : s.seats[p]? = some x) (hrun : x.state = .running) (hst : st ≠ .running) :
    s'.sends = s.sends + tick (st ≠ .dead ∧ r.sends) := by
  rw [← sends_leave hl hx hrun hst]
  cases h with
  | @switch next y r' hne hy hready hctx =>
    exact sends_enter _ hl (by simp [Stage.leave, hne, hy]) hready hctx
  | idle hb =>
    simp only [Stage.sends, Stage.idle, show (s.leave p st r).loaded = none from hl]
    simp [Resume.sends]

end Stage

/-! ### Messages on their way -/

/-- The messages an endpoint holds: buffered, or waiting with their sender. -/
def Endpoint.messages (e : Endpoint) : ℕ := e.ring.toList.length + e.sendWaiters.toList.length

def Wire.held (w : Wire) : ℕ :=
  ∑ ep, (w.ipc ep).messages + w.mailboxes.countP Option.isSome

/-- What is sent, or being sent, and not accounted for. -/
def due (v : Stage × Wire) : UInt64 :=
  v.2.sent + UInt64.ofNat v.1.sends - (v.2.received + UInt64.ofNat v.2.held)

theorem messages_update (f : Fin numEndpoints → Endpoint) (ep : Fin numEndpoints) (e : Endpoint) :
    ∑ x, (Function.update f ep e x).messages + (f ep).messages =
      ∑ x, (f x).messages + e.messages := by
  rw [← Finset.add_sum_erase _ _ (Finset.mem_univ ep),
    ← Finset.add_sum_erase _ (fun x => (f x).messages) (Finset.mem_univ ep),
    Finset.sum_congr rfl fun x hx => by
      rw [Function.update_of_ne (Finset.ne_of_mem_erase hx)]]
  simp only [Function.update_self]
  omega

theorem map_mailbox_modify {f : Task → Task} {g : Option KMessage → Option KMessage}
    (h : ∀ t, (f t).mailbox = g t.mailbox) (l : List Task) (i : ℕ) :
    (l.modify i f).map Task.mailbox = (l.map Task.mailbox).modify i g := by
  apply List.ext_getElem?
  intro n
  by_cases hn : i = n
  · subst hn
    cases hl : l[i]? <;> simp [hl, h]
  · simp [hn]

namespace Machine

variable {k k' k₁ : Machine} {i p t : ℕ} {x : Task} {st : State} {r : Resume} {km : KMessage}
  {ep : Fin numEndpoints} {e : Endpoint} {ds dr : UInt64} {caller : Caller} {heap : Heap}

theorem Ruled.due (h : Ruled ep e ds dr k k₁) :
    Kernel.due k₁.seen + UInt64.ofNat e.messages + dr =
      Kernel.due k.seen + UInt64.ofNat (k.ipc ep).messages + ds := by
  have hheld : k₁.wire.held + (k.ipc ep).messages = k.wire.held + e.messages := by
    have hsum : ∑ x, (Function.update k.ipc ep e x).messages + (k.ipc ep).messages =
        ∑ x, (k.wire.ipc x).messages + e.messages := messages_update k.ipc ep e
    rw [h.wire]
    simp only [Wire.held]
    omega
  have hheld := congrArg UInt64.ofNat hheld
  simp only [UInt64.ofNat_add] at hheld
  have hsent : k₁.wire.sent = k.wire.sent + ds := congrArg Wire.sent h.wire
  have hrecv : k₁.wire.received = k.wire.received + dr := congrArg Wire.received h.wire
  simp only [Kernel.due, seen, h.stage, hsent, hrecv]
  grind

theorem Leaves.due (h : Leaves k k k' p st r) (hc : k.Coherent) (hl : k.loaded = none)
    (hst : st ≠ .running) :
    Kernel.due k'.seen = Kernel.due k.seen + UInt64.ofNat (tick (st ≠ .dead ∧ r.sends)) := by
  obtain ⟨x, hx, hrun⟩ := hc.current_seat h.current
  have hsends := h.away.sends hl (stage_seat hx) hrun hst
  simp only [Kernel.due, seen, h.wire, hsends, UInt64.ofNat_add]
  grind

theorem unblock_due (h : k.unblock i = .ok k') : Kernel.due k'.seen = Kernel.due k.seen := by
  obtain ⟨hwire, hs | ⟨y, hy, hb, hs⟩⟩ := unblock_ok h
  · simp only [Kernel.due, seen, hwire, hs]
  · simp only [Kernel.due, seen, hwire, hs, Stage.sends_wake hy hb]

theorem deliver_due (hx : k.tasks[i]? = some x) (hm : x.mailbox = none)
    (h : k.deliver i km = .ok k') : Kernel.due k'.seen + 1 = Kernel.due k.seen := by
  obtain ⟨k₁, hk₁, h⟩ := bind_eq_ok h
  have hstage := onTask_stage hk₁ fun _ _ => rfl
  obtain ⟨-, rfl⟩ := onTask_ok hk₁
  rw [unblock_due h]
  have hcount := countP_modify Option.isSome (fun _ => some km)
    (show (k.tasks.map Task.mailbox)[i]? = some none by simp [hx, hm])
  simp only [Option.isSome_some, Option.isSome_none, tick_true, tick_false, Nat.add_zero] at hcount
  simp only [Kernel.due, seen, hstage, wire, Wire.held]
  rw [map_mailbox_modify (g := fun _ => some km) fun _ => rfl, hcount]
  simp only [UInt64.ofNat_add]
  grind

theorem takeMailbox_due (h : k.takeMailbox = .ok (km, k')) :
    Kernel.due k'.seen = Kernel.due k.seen + 1 := by
  obtain ⟨me, y, -, hy, hm, rfl⟩ := takeMailbox_ok h
  have hstage := stage_modify k (f := fun t => { t with mailbox := none }) (fun _ => rfl) me
  have hcount := countP_modify Option.isSome (fun _ => none)
    (show (k.tasks.map Task.mailbox)[me]? = some (some km) by simp [hy, hm])
  simp only [Option.isSome_some, Option.isSome_none, tick_true, tick_false, Nat.add_zero] at hcount
  simp only [Kernel.due, seen, hstage, wire, Wire.held]
  rw [map_mailbox_modify (g := fun _ => none) fun _ => rfl, ← hcount]
  simp only [UInt64.ofNat_add]
  grind

theorem messages_chan (e : Endpoint) :
    e.messages = e.chan.ring.length + e.chan.senders.length := rfl

/-- Whatever a send's decision leads to, the message is accounted for. -/
theorem sendOn_due (hc : k.Coherent) (hq : k.net.Queued ringCap) (hl : k.loaded = none)
    (h : k.sendOn ep km caller = .ok k') : Kernel.due k'.seen = Kernel.due k.seen := by
  obtain ⟨me, -, k₁, h⟩ := sendOn_ok h
  have heffect := (k.ipc ep).decideSend_effect me km
  generalize (k.ipc ep).decideSend me km = d at h heffect
  obtain ⟨action, e⟩ := d
  cases action with
  | deliver w =>
    obtain ⟨hr, k₂, hk₂, hs⟩ := h
    obtain ⟨rest, hw, hchan⟩ := heffect
    obtain ⟨x, hx, -, hm⟩ := hc.receiver_mailbox hq
      (show w ∈ (k.ipc ep).chan.receivers by simp [hw])
    have hmess : e.messages = (k.ipc ep).messages := by simp only [messages_chan, hchan]
    have hdue := hr.due
    have hdel := deliver_due (hr.tasks ▸ hx) hm hk₂
    rw [hs]
    grind
  | buffered =>
    obtain ⟨hr, hs⟩ := h
    obtain ⟨-, -, hchan⟩ := heffect
    have hmess : e.messages = (k.ipc ep).messages + 1 := by
      simp only [messages_chan, hchan, List.length_append, List.length_singleton]
      omega
    have hdue := hr.due
    rw [hmess, UInt64.ofNat_add] at hdue
    rw [hs]
    grind
  | block =>
    obtain ⟨hr, hpark⟩ := h
    obtain ⟨-, -, hchan⟩ := heffect
    have hmess : e.messages = (k.ipc ep).messages + 1 := by
      simp only [messages_chan, hchan, List.length_append, List.length_singleton]
      omega
    have hc₁ := hr.sameSched.coherent hc
    obtain ⟨p, hleave⟩ := parkAndSwitch_leaves hc₁ hpark
    have hpend := hleave.due hc₁ (hr.loaded.trans hl) (by simp)
    have hdue := hr.due
    rw [hmess, UInt64.ofNat_add] at hdue
    simp only [Resume.sends, ne_eq, reduceCtorEq, not_false_eq_true, and_self, decide_true,
      tick_true] at hpend
    grind
  | full =>
    obtain ⟨hr, hs⟩ := h
    obtain rfl := heffect
    have hdue := hr.due
    rw [hs]
    grind

theorem recvOn_due (hc : k.Coherent) (hl : k.loaded = none)
    (h : k.recvOn heap ep caller = .ok k') : Kernel.due k'.seen = Kernel.due k.seen := by
  obtain ⟨me, -, k₁, h⟩ := recvOn_ok h
  have heffect := (k.ipc ep).decideRecv_effect me
  generalize (k.ipc ep).decideRecv me = d at h heffect
  obtain ⟨action, e⟩ := d
  cases action with
  | got km =>
    obtain ⟨hr, hs⟩ := h
    obtain ⟨rest, hring, -, hchan⟩ := heffect
    have hmess : (k.ipc ep).messages = e.messages + 1 := by
      simp only [messages_chan, hchan, hring, List.length_cons]
      omega
    have hdue := hr.due
    rw [hmess, UInt64.ofNat_add] at hdue
    rw [hs]
    grind
  | wakeSender km w =>
    obtain ⟨hr, k₂, hk₂, hs⟩ := h
    obtain ⟨rest, skm, ss, hring, hsend, hchan⟩ := heffect
    have hmess : (k.ipc ep).messages = e.messages + 1 := by
      simp only [messages_chan, hchan, hring, hsend, List.length_cons, List.length_append,
        List.length_nil]
      omega
    have hdue := hr.due
    rw [hmess, UInt64.ofNat_add] at hdue
    rw [hs, unblock_due hk₂]
    grind
  | block =>
    obtain ⟨hr, hpark⟩ := h
    obtain ⟨-, hchan⟩ := heffect
    have hmess : e.messages = (k.ipc ep).messages := by simp only [messages_chan, hchan]
    have hc₁ := hr.sameSched.coherent hc
    obtain ⟨p, hleave⟩ := parkAndSwitch_leaves hc₁ hpark
    have hpend := hleave.due hc₁ (hr.loaded.trans hl) (by simp)
    have hdue := hr.due
    rw [hmess] at hdue
    simp only [Resume.sends, Bool.false_eq_true, and_false, decide_false, tick_false] at hpend
    grind
  | full =>
    obtain ⟨hr, hs⟩ := h
    obtain rfl := heffect
    have hdue := hr.due
    rw [hs]
    grind

theorem send_due {ep : ℕ} (hc : k.Coherent) (hq : k.net.Queued ringCap) (hl : k.loaded = none)
    (h : k.send ep km caller = .ok k') : Kernel.due k'.seen = Kernel.due k.seen := by
  unfold send at h
  split at h
  · exact sendOn_due hc hq hl h
  · rw [returnSend_seen h]

theorem recv_due {ep : ℕ} (hc : k.Coherent) (hl : k.loaded = none)
    (h : k.recv heap ep caller = .ok k') : Kernel.due k'.seen = Kernel.due k.seen := by
  unfold recv at h
  split at h
  · exact recvOn_due hc hl h
  · rw [returnRecv_seen h]

theorem reschedule_due (hc : k.Coherent) (hl : k.loaded = none) (hr : r.sends = false)
    (h : k.reschedule r = .ok (some k')) : Kernel.due k'.seen = Kernel.due k.seen := by
  obtain ⟨p, hleave⟩ := reschedule_leaves hc h
  have hdue := hleave.due hc hl (by simp)
  simpa [hr] using hdue

theorem exit_due (hc : k.Coherent) (hq : k.net.Queued ringCap) (hl : k.loaded = none)
    (h : k.exit = .ok k') : Kernel.due k'.seen = Kernel.due k.seen := by
  obtain ⟨p, hleave⟩ := exit_leaves hc hq hl h
  have hdue := hleave.due hc hl (by simp)
  simpa using hdue

theorem onSyscall_due {frame : Frame} (hc : k.Coherent) (hq : k.net.Queued ringCap)
    (hl : k.loaded = none) (hk : k.current = some t) (h : k.onSyscall heap frame = .ok k') :
    Kernel.due k'.seen = Kernel.due k.seen := by
  obtain hs | ⟨k₁, he, h⟩ := onSyscall_ok h
  · rw [hs]
  · have hc₁ := he.sched.coherent hc
    have hl₁ := he.sched.loaded.trans hl
    have hq₁ := he.queued hq
    rw [← he.seen]
    obtain h | h | h | h := h
    · exact reschedule_due hc₁ hl₁ rfl h
    · exact exit_due hc₁ hq₁ hl₁ h
    · obtain hs | ⟨ep, km, via, h⟩ := sysSend_ok h
      · rw [hs]
      · exact send_due hc₁ hq₁ hl₁ h
    · obtain hs | ⟨k₂, ep, via, hk₂, h⟩ := sysRecv_ok h
      · rw [hs]
      · have hown := writeUserMsg_sameSched hc₁ (he.sched.current.trans hk) hk₂
        rw [← writeUserMsg_seen hk₂]
        exact recv_due (hown.coherent hc₁) (hown.loaded.trans hl₁) h

/-- Entering a ready task from a stage with nothing loaded. -/
theorem startLoop_due (hc : ∀ (i : ℕ) (y : Task), k.tasks[i]? = some y → y.state = .ready →
    ∃ r, y.ctx = .saved r) (hl : k.loaded = none) (h : k.startLoop = .ok k') :
    Kernel.due k'.seen = Kernel.due k.seen := by
  obtain ⟨-, rfl⟩ | ⟨next, y, hy, hready, hk'⟩ := startLoop_ok h
  · have hstage : ({ k with loaded := none } : Machine).stage = k.stage := by
      simp only [stage, hl]
    simp only [Kernel.due, seen, hstage]
    rfl
  · obtain ⟨r, hctx⟩ := hc next y hy hready
    obtain ⟨hstage, hwire⟩ := hk' r hctx
    have hsends : k'.stage.sends = k.stage.sends := by
      rw [hstage]
      exact Stage.sends_enter (s := k.stage.board) none hl (stage_seat hy) hready hctx
    simp only [Kernel.due, seen, hwire, hsends]

theorem resume_due (hc : k.Coherent) (h : k.resume heap = .ok k') :
    Kernel.due k'.seen = Kernel.due k.seen := by
  cases hr : k.loaded with
  | none =>
    unfold resume at h
    rw [hr] at h
    cases h
  | some r =>
    cases hcur : k.current with
    | some p =>
      obtain ⟨k₁, hs, hw, h⟩ := resume_task hc hr hcur h
      have hsends := Stage.sends_settle (s := k.stage) hr
      have hdue : Kernel.due k₁.seen + UInt64.ofNat (tick r.sends) = Kernel.due k.seen := by
        simp only [Kernel.due, seen, hs, hw, ← hsends, UInt64.ofNat_add]
        grind
      have hcount : ∀ (k : Machine) (f : Stats → Stats), (∀ s, (f s).tally = s.tally) →
          Kernel.due (k.count f).seen + ((f k.stats).received - k.stats.received) =
            Kernel.due k.seen + ((f k.stats).sent - k.stats.sent) := by
        intro k f htally
        have hstage : (k.count f).stage = k.stage := by simp only [stage, count, htally]
        have hheld : (k.count f).wire.held = k.wire.held := rfl
        simp only [Kernel.due, seen, hstage, hheld]
        simp only [wire, count]
        grind
      cases r with
      | sendParked ep caller =>
        have hsent := hcount k₁ (fun s => { s with sent := s.sent + 1 }) fun _ => rfl
        simp only [Resume.sends, tick_true] at hdue
        rw [h]
        grind
      | recvParked ep caller =>
        obtain ⟨km, k₂, hk₂, h⟩ := h
        have hrecv := hcount k₂ (fun s => { s with received := s.received + 1 }) fun _ => rfl
        have htake := takeMailbox_due hk₂
        simp only [Resume.sends, tick_false] at hdue
        rw [h]
        grind
      | _ =>
        simp only [Resume.sends, tick_false] at hdue
        rw [h]
        grind
    | none =>
      obtain ⟨hin, k₁, hs, hw, h⟩ := resume_bootstrap hc hcur h
      obtain rfl := Option.some.inj (hr.symm.trans hin)
      have hl : k₁.loaded = none := (congrArg Stage.loaded hs).trans (Stage.settle_loaded _)
      have hready : ∀ (i : ℕ) (y : Task), k₁.tasks[i]? = some y → y.state = .ready →
          ∃ r, y.ctx = .saved r := by
        intro i y hy hready
        have hseat := stage_seat hy
        rw [hs] at hseat
        exact hc.ready_seat (ready_settled (s := k.stage.home) hseat hready) hready
      rw [startLoop_due hready hl h]
      have hsends := Stage.sends_settle (s := k.stage.home) (r := .inStart) hr
      simp only [Resume.sends, tick_false, Nat.add_zero] at hsends
      simp only [Kernel.due, seen, hs, hw, hsends]
      rfl

theorem spawnUser_due {stack : Option UInt64} {space : Option UserSpace} {grants : List Cap} :
    Kernel.due (k.spawnUser heap stack space grants).seen = Kernel.due k.seen := by
  unfold spawnUser
  split
  · rfl
  · rename_i caps _
    cases stack with
    | none => rfl
    | some top =>
      simp only [Option.isSome_some, if_true, spawnWith, record, Kernel.due, seen, stage, wire,
        Stage.sends, Wire.held, List.map_append, List.countP_append, List.map_cons, List.map_nil,
        List.countP_singleton]
      rfl

/-- No act moves what is due. -/
theorem Move.due {l : Heap × Act} (hs : k.Sound) (h : Move k l k') :
    Kernel.due k'.seen = Kernel.due k.seen := by
  obtain ⟨heap, act⟩ := l
  obtain ⟨he, h⟩ := h
  have hc := hs.coherent
  cases act with
  | spawn stack space grants =>
    obtain rfl := Except.ok.inj h
    exact spawnUser_due
  | start =>
    exact startLoop_due (k := { k with kernelRoot := k.cpu.cr3 })
      (fun i y hy hready => hc.ready_seat (stage_seat hy) hready) he.1 h
  | timer =>
    let k₁ : Machine := { k with needResched := false }
    have hsame : SameSched k k₁ := ⟨rfl, rfl, rfl, rfl, rfl⟩
    simp only [step, onIrqEpilogue, requestResched, if_true] at h
    obtain ⟨o, ho, h⟩ := bind_eq_ok h
    cases o with
    | none =>
      obtain rfl := Except.ok.inj h
      rfl
    | some k₂ =>
      obtain rfl := Except.ok.inj h
      exact reschedule_due (k := k₁) (hsame.coherent hc) he rfl ho
  | syscall frame =>
    obtain ⟨hl, t, x, hk, -⟩ := he
    exact onSyscall_due hc hs.queued hl hk h
  | send ep km => exact send_due hc hs.queued he.1 h
  | recv ep => exact recv_due hc he.1 h
  | exit => exact exit_due hc hs.queued he.1 h
  | store addr value =>
    simp only [step] at h
    split at h
    · cases h
    · rw [onTask_seen h fun y _ => ⟨by cases hsp : y.space <;> simp [Task.seat, hsp], rfl⟩]
  | create object =>
    simp only [step] at h
    split at h <;> (obtain rfl := Except.ok.inj h; rfl)
  | revoke r =>
    simp only [step] at h
    obtain rfl := Except.ok.inj h
    split <;> rfl
  | arm =>
    obtain rfl := Except.ok.inj h
    rfl
  | resume => exact resume_due hc h

/-- What holds along every run. -/
structure Balanced (k : Machine) : Prop where
  sound : k.Sound
  parked : k.stage.Parked
  due : Kernel.due k.seen = 0

theorem init_balanced (root : UInt64) : (init root).Balanced where
  sound := init_sound root
  parked := by
    refine ⟨?_, rfl⟩
    have hblocked : (init root).stage.blocked = 0 := rfl
    rw [hblocked]
    rfl
  due := by
    have hheld : (init root).wire.held = 0 := by
      have hnew : Endpoint.new.messages = 0 := by decide
      simp only [Wire.held, wire, init, hnew, Finset.sum_const_zero]
      rfl
    have hsends : (init root).stage.sends = 0 := rfl
    simp only [Kernel.due, seen, hheld, hsends]
    simp [wire, init, Stats.zero]

theorem Balanced.move {l : Heap × Act} (hb : k.Balanced) (h : Move k l k') : k'.Balanced where
  sound := hb.sound.move h
  parked := hb.parked.step (h.staged hb.sound.coherent hb.sound.queued)
  due := by
    rw [h.due hb.sound]
    exact hb.due

theorem Reachable.balanced (h : Reachable k) : k.Balanced := by
  obtain ⟨root, hrun⟩ := h
  refine hrun.invariant Balanced (init_balanced root) ?_
  intro k l k' hb _ hm
  exact hb.move hm

/-- Senders parked, and senders woken and not resumed. -/
def sendersParked (k : Machine) : ℕ := k.tasks.countP fun t => t.state = .blocked ∧ t.ctx.sends

def sendersWoken (k : Machine) : ℕ :=
  k.tasks.countP (fun t => t.state = .ready ∧ t.ctx.sends) + tick (k.loaded.any Resume.sends)

theorem stage_sends (k : Machine) : k.stage.sends = k.sendersParked + k.sendersWoken := by
  have hsplit : (k.tasks.map Task.seat).countP Seat.sends =
      k.tasks.countP (fun t => t.state = .blocked ∧ t.ctx.sends) +
        k.tasks.countP (fun t => t.state = .ready ∧ t.ctx.sends) := by
    induction k.tasks with
    | nil => rfl
    | cons t l ih =>
      simp only [List.map_cons, List.countP_cons, ih]
      cases hst : t.state <;> simp [Seat.sends, Task.seat, hst] <;> omega
  simp only [Stage.sends, stage, sendersParked, sendersWoken, hsplit]
  omega

/-- Nobody is parked or waits to resume from a send or a receive. -/
structure Idle (k : Machine) : Prop where
  tasks : ∀ t ∈ k.tasks, t.state ≠ .blocked ∧ (t.state = .ready → t.ctx.parks = false)
  loaded : k.loaded.any Resume.parks = false

theorem sends_of_parks (h : r.parks = false) : r.sends = false := by
  cases r with
  | sendParked => cases h
  | _ => rfl

theorem awaits_of_parks (h : r.parks = false) : r.awaits = false := by
  cases r with
  | recvParked => cases h
  | _ => rfl

theorem Idle.senders (h : k.Idle) : k.sendersParked = 0 ∧ k.sendersWoken = 0 := by
  refine ⟨?_, ?_⟩
  · refine List.countP_eq_zero.mpr fun t ht => ?_
    simp [(h.tasks t ht).1]
  · have hready : k.tasks.countP (fun t => t.state = .ready ∧ t.ctx.sends) = 0 := by
      refine List.countP_eq_zero.mpr fun t ht => ?_
      by_cases hst : t.state = .ready
      · have hctx := (h.tasks t ht).2 hst
        cases hc : t.ctx with
        | saved r =>
          rw [hc] at hctx
          simp [Context.sends, sends_of_parks hctx]
        | _ => simp [Context.sends]
      · simp [hst]
    have hloaded : k.loaded.any Resume.sends = false := by
      cases hl : k.loaded with
      | none => rfl
      | some r => exact sends_of_parks (by simpa [hl] using h.loaded)
    rw [sendersWoken, hready, hloaded]
    rfl

theorem Idle.mailbox (h : k.Idle) (hc : k.Coherent) (hx : k.tasks[i]? = some x) :
    x.mailbox = none := by
  have hmem := List.mem_of_getElem? hx
  have hok := hc.ok i x hx
  cases hst : x.state with
  | ready =>
    simp only [Task.Ok, hst] at hok
    obtain ⟨r, hctx, -, hmail, -⟩ := hok
    have hparks := (h.tasks x hmem).2 hst
    rw [hctx] at hparks
    rw [awaits_of_parks hparks] at hmail
    simpa using hmail
  | running =>
    simp only [Task.Ok, hst] at hok
    obtain ⟨-, hmail, -⟩ := hok
    cases hl : k.loaded with
    | none => simpa [hl] using hmail
    | some r => simpa [hl, awaits_of_parks (r := r) (by simpa [hl] using h.loaded)] using hmail
  | blocked => exact absurd hst (h.tasks x hmem).1
  | dead => exact hc.dead_mailbox i x hx hst

/-- Every park is answered by a wake-up or still stands, nobody dies parked, and every
message sent, or being sent, is received or in one place on its way. -/
theorem counters_balance (h : Reachable k) :
    k.stats.blocks = k.stats.wakeups +
      UInt64.ofNat (k.tasks.countP fun t => t.state = .blocked) ∧
    k.stats.diedBlocked = 0 ∧
    k.stats.sent + UInt64.ofNat (k.sendersParked + k.sendersWoken) =
      k.stats.received + UInt64.ofNat (∑ ep, (k.ipc ep).ring.toList.length +
        ∑ ep, (k.ipc ep).sendWaiters.toList.length + k.tasks.countP fun t => t.mailbox.isSome) ∧
    (k.Idle → (∀ ep, (k.ipc ep).ring.toList = []) →
      k.stats.sent = k.stats.received ∧ k.stats.blocks = k.stats.wakeups) := by
  obtain ⟨hs, hparked, hdue⟩ := h.balanced
  have hblocks : k.stats.blocks = k.stats.wakeups +
      UInt64.ofNat (k.tasks.countP fun t => t.state = .blocked) := by
    have hb := hparked.blocks
    simp only [Stage.blocked, stage, List.countP_map] at hb
    exact hb
  have hheld : k.wire.held = ∑ ep, (k.ipc ep).ring.toList.length +
      ∑ ep, (k.ipc ep).sendWaiters.toList.length + k.tasks.countP fun t => t.mailbox.isSome := by
    simp only [Wire.held, wire, Endpoint.messages, Finset.sum_add_distrib, List.countP_map]
    rfl
  have hsent : k.stats.sent + UInt64.ofNat (k.sendersParked + k.sendersWoken) =
      k.stats.received + UInt64.ofNat k.wire.held := by
    rw [← stage_sends]
    have hzero : k.stats.sent + UInt64.ofNat k.stage.sends -
        (k.stats.received + UInt64.ofNat k.wire.held) = 0 := hdue
    grind
  refine ⟨hblocks, hparked.died, hheld ▸ hsent, fun hidle hrings => ?_⟩
  have hnone : k.tasks.countP (fun t => t.mailbox.isSome) = 0 := by
    refine List.countP_eq_zero.mpr fun t ht => ?_
    obtain ⟨i, hi⟩ := List.mem_iff_getElem?.mp ht
    simp [hidle.mailbox hs.coherent hi]
  have hqueues : ∀ ep, (k.ipc ep).sendWaiters.toList = [] := by
    intro ep
    by_contra hne
    have hfull : (k.ipc ep).ring.toList.length = ringCap := hs.queued.full ep hne
    rw [hrings ep] at hfull
    cases hfull
  have hblocked : k.tasks.countP (fun t => t.state = .blocked) = 0 := by
    refine List.countP_eq_zero.mpr fun t ht => ?_
    simp [(hidle.tasks t ht).1]
  constructor
  · rw [hheld, hidle.senders.1, hidle.senders.2] at hsent
    simpa [hrings, hqueues, hnone] using hsent
  · simpa [hblocked] using hblocks

theorem exchange_reachable : Reachable (after exchange) := after_reachable (by decide)

/-- The exchange is over: one message was sent and received, and the park was answered. -/
theorem counters_balance_exchange : (after exchange).stats.sent = (after exchange).stats.received ∧
    (after exchange).stats.blocks = (after exchange).stats.wakeups := by
  obtain ⟨-, -, -, hidle⟩ := counters_balance exchange_reachable
  exact hidle ⟨by decide, by decide⟩ (by decide)

end Machine

end StarOs.Kernel
