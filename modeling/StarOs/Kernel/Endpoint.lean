import StarOs.Kernel.Cap
import StarOs.Library.Bounded
import StarOs.Library.Rendezvous

/-! Endpoints: a two-slot ring and two wait queues, with the decisions `send` and
`recv` take under the endpoint lock. Every decision is one of the moves of a
rendezvous channel on the entries in order, `chan`; the arrays beneath also keep
stale entries, and `Holds` speaks of those too. -/

namespace StarOs.Kernel

open Library

/-- `RING_CAP`. -/
def ringCap : ℕ := 2

/-- `MAX_WAITERS`. -/
def maxWaiters : ℕ := 4

/-- A message as the kernel carries it, with the capability it transfers resolved. -/
structure KMessage where
  msg : Message
  cap : Option Cap
  deriving DecidableEq

/-- `KMessage::empty`: what an unused slot holds. -/
def KMessage.empty : KMessage := ⟨Message.new 0, none⟩

/-- `Endpoint`. -/
structure Endpoint where
  ring : Ring KMessage ringCap
  recvWaiters : ArrayQueue ℕ maxWaiters
  sendWaiters : ArrayQueue (ℕ × KMessage) maxWaiters

/-- What `send` decided under the lock. -/
inductive SendAction where
  | deliver (w : ℕ)
  | buffered
  | block
  | full
  deriving DecidableEq

/-- What `recv` decided under the lock. -/
inductive RecvAction where
  | got (km : KMessage)
  | wakeSender (km : KMessage) (tid : ℕ)
  | block
  | full
  deriving DecidableEq

/-- The message a receive comes away with, if its decision gave it one. -/
def RecvAction.message : RecvAction → Option KMessage
  | .got km => some km
  | .wakeSender km _ => some km
  | .block => none
  | .full => none

namespace Endpoint

/-- `Endpoint::new`. -/
def new : Endpoint where
  ring := ⟨Vector.replicate ringCap .empty, 0, 0, by decide, by decide⟩
  recvWaiters := ⟨Vector.replicate maxWaiters 0, 0, by decide⟩
  sendWaiters := ⟨Vector.replicate maxWaiters (0, .empty), 0, by decide⟩

def pushMsg (km : KMessage) (e : Endpoint) : Bool × Endpoint :=
  let (ok, ring) := e.ring.push km
  (ok, { e with ring := ring })

def popMsg (e : Endpoint) : Option (KMessage × Endpoint) :=
  match e.ring.pop with
  | none => none
  | some (km, ring) => some (km, { e with ring := ring })

def pushRecvWaiter (task : ℕ) (e : Endpoint) : Bool × Endpoint :=
  let (ok, waiters) := e.recvWaiters.push task
  (ok, { e with recvWaiters := waiters })

def popRecvWaiter (e : Endpoint) : Option (ℕ × Endpoint) :=
  match e.recvWaiters.pop with
  | none => none
  | some (task, waiters) => some (task, { e with recvWaiters := waiters })

def pushSendWaiter (task : ℕ) (km : KMessage) (e : Endpoint) : Bool × Endpoint :=
  let (ok, waiters) := e.sendWaiters.push (task, km)
  (ok, { e with sendWaiters := waiters })

def popSendWaiter (e : Endpoint) : Option ((ℕ × KMessage) × Endpoint) :=
  match e.sendWaiters.pop with
  | none => none
  | some (waiter, waiters) => some (waiter, { e with sendWaiters := waiters })

/-- `Endpoint::remove_waiter`. -/
def removeWaiter (task : ℕ) (e : Endpoint) : Bool × Endpoint :=
  let (r, recvWaiters) := e.recvWaiters.removeFrom (fun w => w == task) 0
  let (s, sendWaiters) := e.sendWaiters.removeFrom (fun w => w.1 == task) 0
  (r || s, { e with recvWaiters := recvWaiters, sendWaiters := sendWaiters })

/-- The decision in `send`. -/
def decideSend (me : ℕ) (km : KMessage) (e : Endpoint) : SendAction × Endpoint :=
  match e.popRecvWaiter with
  | some (w, e) => (.deliver w, e)
  | none =>
    match e.pushMsg km with
    | (true, e) => (.buffered, e)
    | (false, e) =>
      match e.pushSendWaiter me km with
      | (true, e) => (.block, e)
      | (false, e) => (.full, e)

/-- The decision in `recv`. -/
def decideRecv (me : ℕ) (e : Endpoint) : RecvAction × Endpoint :=
  match e.popMsg with
  | some (km, e) =>
    match e.popSendWaiter with
    -- a slot is free now: the first blocked sender's message takes it
    | some ((tid, skm), e) => (.wakeSender km tid, (e.pushMsg skm).2)
    | none => (.got km, e)
  | none =>
    match e.pushRecvWaiter me with
    | (true, e) => (.block, e)
    | (false, e) => (.full, e)

/-- The endpoint as a channel: its live entries in order. -/
def chan (e : Endpoint) : Chan ℕ KMessage :=
  ⟨e.ring.toList, e.recvWaiters.toList, e.sendWaiters.toList⟩

theorem chan_new : new.chan = ⟨[], [], []⟩ := rfl

theorem length_ring_le (e : Endpoint) : e.chan.ring.length ≤ ringCap := by
  rw [chan, Ring.length_toList]
  exact e.ring.len_le

theorem popRecvWaiter_none {e : Endpoint} (h : e.popRecvWaiter = none) :
    e.chan.receivers = [] := by
  unfold popRecvWaiter at h
  split at h
  · rename_i hpop
    exact ArrayQueue.pop_eq_none.mp hpop
  · cases h

theorem popRecvWaiter_some {e e' : Endpoint} {w : ℕ} (h : e.popRecvWaiter = some (w, e')) :
    e.chan.receivers = w :: e'.chan.receivers ∧
      e'.chan = { e.chan with receivers := e'.chan.receivers } := by
  unfold popRecvWaiter at h
  split at h
  · cases h
  · rename_i hpop
    obtain ⟨rfl, rfl⟩ := Prod.mk.injEq .. ▸ Option.some.inj h
    exact ⟨ArrayQueue.toList_pop hpop, rfl⟩

theorem popMsg_none {e : Endpoint} (h : e.popMsg = none) : e.chan.ring = [] := by
  unfold popMsg at h
  split at h
  · rename_i hpop
    exact Ring.pop_eq_none.mp hpop
  · cases h

theorem popMsg_some {e e' : Endpoint} {km : KMessage} (h : e.popMsg = some (km, e')) :
    e.chan.ring = km :: e'.chan.ring ∧ e'.chan = { e.chan with ring := e'.chan.ring } := by
  unfold popMsg at h
  split at h
  · cases h
  · rename_i hpop
    obtain ⟨rfl, rfl⟩ := Prod.mk.injEq .. ▸ Option.some.inj h
    exact ⟨Ring.toList_pop hpop, rfl⟩

theorem popSendWaiter_none {e : Endpoint} (h : e.popSendWaiter = none) :
    e.chan.senders = [] := by
  unfold popSendWaiter at h
  split at h
  · rename_i hpop
    exact ArrayQueue.pop_eq_none.mp hpop
  · cases h

theorem popSendWaiter_some {e e' : Endpoint} {w : ℕ × KMessage}
    (h : e.popSendWaiter = some (w, e')) :
    e.chan.senders = w :: e'.chan.senders ∧
      e'.chan = { e.chan with senders := e'.chan.senders } := by
  unfold popSendWaiter at h
  split at h
  · cases h
  · rename_i hpop
    obtain ⟨rfl, rfl⟩ := Prod.mk.injEq .. ▸ Option.some.inj h
    exact ⟨ArrayQueue.toList_pop hpop, rfl⟩

theorem pushMsg_room {e : Endpoint} (km : KMessage) (h : e.chan.ring.length < ringCap) :
    (e.pushMsg km).1 = true ∧
      (e.pushMsg km).2.chan = { e.chan with ring := e.chan.ring ++ [km] } := by
  have hlen : e.ring.len < ringCap := by simpa [chan] using h
  obtain ⟨hok, hlist⟩ := Ring.toList_push km hlen
  exact ⟨hok, congrArg (Chan.mk · e.recvWaiters.toList e.sendWaiters.toList) hlist⟩

theorem pushMsg_full {e : Endpoint} (km : KMessage) (h : e.chan.ring.length = ringCap) :
    e.pushMsg km = (false, e) := by
  have hlen : e.ring.len = ringCap := by simpa [chan] using h
  simp [pushMsg, Ring.push_full km hlen]

/-- Either the queue takes the waiter at its end, or it is full and nothing changes. -/
theorem pushRecvWaiter_cases (task : ℕ) (e : Endpoint) :
    ((e.pushRecvWaiter task).1 = true ∧ (e.pushRecvWaiter task).2.chan =
      { e.chan with receivers := e.chan.receivers ++ [task] }) ∨
    e.pushRecvWaiter task = (false, e) := by
  by_cases hlen : e.recvWaiters.len = maxWaiters
  · right; simp [pushRecvWaiter, ArrayQueue.push_full task hlen]
  · left
    obtain ⟨hok, hlist⟩ :=
      ArrayQueue.toList_push task (Nat.lt_of_le_of_ne e.recvWaiters.len_le hlen)
    exact ⟨hok, congrArg (Chan.mk e.ring.toList · e.sendWaiters.toList) hlist⟩

theorem pushSendWaiter_cases (task : ℕ) (km : KMessage) (e : Endpoint) :
    ((e.pushSendWaiter task km).1 = true ∧ (e.pushSendWaiter task km).2.chan =
      { e.chan with senders := e.chan.senders ++ [(task, km)] }) ∨
    e.pushSendWaiter task km = (false, e) := by
  by_cases hlen : e.sendWaiters.len = maxWaiters
  · right; simp [pushSendWaiter, ArrayQueue.push_full (task, km) hlen]
  · left
    obtain ⟨hok, hlist⟩ :=
      ArrayQueue.toList_push (task, km) (Nat.lt_of_le_of_ne e.sendWaiters.len_le hlen)
    exact ⟨hok, congrArg (Chan.mk e.ring.toList e.recvWaiters.toList ·) hlist⟩

/-- What a send's decision does to the channel. -/
def SendEffect (me : ℕ) (km : KMessage) (e e' : Endpoint) : SendAction → Prop
  | .deliver w => ∃ rest, e.chan.receivers = w :: rest ∧ e'.chan = { e.chan with receivers := rest }
  | .buffered => e.chan.receivers = [] ∧ e.chan.ring.length < ringCap ∧
      e'.chan = { e.chan with ring := e.chan.ring ++ [km] }
  | .block => e.chan.receivers = [] ∧ e.chan.ring.length = ringCap ∧
      e'.chan = { e.chan with senders := e.chan.senders ++ [(me, km)] }
  | .full => e' = e

theorem decideSend_effect (me : ℕ) (km : KMessage) (e : Endpoint) :
    SendEffect me km e (e.decideSend me km).2 (e.decideSend me km).1 := by
  unfold decideSend
  cases hpop : e.popRecvWaiter with
  | some p =>
    obtain ⟨w, e'⟩ := p
    obtain ⟨hw, hchan⟩ := popRecvWaiter_some hpop
    exact ⟨_, hw, hchan⟩
  | none =>
    have hnone := popRecvWaiter_none hpop
    by_cases hroom : e.chan.ring.length < ringCap
    · obtain ⟨hok, hchan⟩ := pushMsg_room km hroom
      rw [← Prod.eta (e.pushMsg km), hok]
      exact ⟨hnone, hroom, hchan⟩
    · have hfull : e.chan.ring.length = ringCap :=
        Nat.le_antisymm (length_ring_le e) (Nat.le_of_not_lt hroom)
      rw [pushMsg_full km hfull]
      rcases pushSendWaiter_cases me km e with ⟨hok, hchan⟩ | hno
      · simp only []
        rw [← Prod.eta (e.pushSendWaiter me km), hok]
        exact ⟨hnone, hfull, hchan⟩
      · simp only [hno]
        rfl

/-- What a receive's decision does to the channel. -/
def RecvEffect (me : ℕ) (e e' : Endpoint) : RecvAction → Prop
  | .got km => ∃ rest, e.chan.ring = km :: rest ∧ e.chan.senders = [] ∧
      e'.chan = { e.chan with ring := rest }
  | .wakeSender km tid => ∃ rest skm ss, e.chan.ring = km :: rest ∧
      e.chan.senders = (tid, skm) :: ss ∧
      e'.chan = { e.chan with ring := rest ++ [skm], senders := ss }
  | .block => e.chan.ring = [] ∧ e'.chan = { e.chan with receivers := e.chan.receivers ++ [me] }
  | .full => e' = e

theorem decideRecv_effect (me : ℕ) (e : Endpoint) :
    RecvEffect me e (e.decideRecv me).2 (e.decideRecv me).1 := by
  unfold decideRecv
  cases hpop : e.popMsg with
  | some p =>
    obtain ⟨km, e₁⟩ := p
    obtain ⟨hring, hchan₁⟩ := popMsg_some hpop
    cases hpop₂ : e₁.popSendWaiter with
    | some q =>
      obtain ⟨⟨tid, skm⟩, e₂⟩ := q
      obtain ⟨hsend, hchan₂⟩ := popSendWaiter_some hpop₂
      have hroom : e₂.chan.ring.length < ringCap := by
        have hle := length_ring_le e
        rw [hring, List.length_cons] at hle
        rw [hchan₂]
        exact hle
      obtain ⟨-, hchan₃⟩ := pushMsg_room skm hroom
      simp only [hpop₂]
      refine ⟨e₁.chan.ring, skm, e₂.chan.senders, hring, ?_, ?_⟩
      · rw [← hsend, hchan₁]
      · rw [hchan₃, hchan₂, hchan₁]
    | none =>
      have hsend := popSendWaiter_none hpop₂
      rw [hchan₁] at hsend
      simp only [hpop₂]
      exact ⟨e₁.chan.ring, hring, hsend, hchan₁⟩
  | none =>
    have hring := popMsg_none hpop
    rcases pushRecvWaiter_cases me e with ⟨hok, hchan⟩ | hno
    · simp only []
      rw [← Prod.eta (e.pushRecvWaiter me), hok]
      exact ⟨hring, hchan⟩
    · simp only [hno]
      rfl

/-- A receive comes away with the oldest buffered message. -/
theorem decideRecv_message (me : ℕ) (e : Endpoint) :
    (e.decideRecv me).1.message = e.chan.ring.head? := by
  unfold decideRecv
  cases hpop : e.popMsg with
  | some p =>
    obtain ⟨km, e₁⟩ := p
    obtain ⟨hring, -⟩ := popMsg_some hpop
    rw [hring]
    cases hpop₂ : e₁.popSendWaiter with
    | some q => simp only [hpop₂]; rfl
    | none => simp only [hpop₂]; rfl
  | none =>
    rw [popMsg_none hpop]
    cases hw : e.pushRecvWaiter me with
    | mk ok e₁ => cases ok <;> simp [RecvAction.message]

/-- It leaves one message fewer, in the ring or among the blocked senders. -/
theorem decideRecv_spends {me : ℕ} {e : Endpoint} {km : KMessage}
    (h : (e.decideRecv me).1.message = some km) :
    (e.decideRecv me).2.chan.ring ≠ e.chan.ring ∨
      (e.decideRecv me).2.chan.senders ≠ e.chan.senders := by
  have heff := decideRecv_effect me e
  cases hd : (e.decideRecv me).1 with
  | got m =>
    rw [hd] at heff
    obtain ⟨rest, hring, -, hchan⟩ : ∃ rest, e.chan.ring = m :: rest ∧ e.chan.senders = [] ∧
      (e.decideRecv me).2.chan = { e.chan with ring := rest } := heff
    left
    rw [hchan, hring]
    exact fun h => List.cons_ne_self m rest h.symm
  | wakeSender m w =>
    rw [hd] at heff
    obtain ⟨rest, skm, ss, hring, hsend, hchan⟩ : ∃ rest skm ss, e.chan.ring = m :: rest ∧
      e.chan.senders = (w, skm) :: ss ∧ (e.decideRecv me).2.chan =
        { e.chan with ring := rest ++ [skm], senders := ss } := heff
    right
    rw [hchan, hsend]
    exact fun h => List.cons_ne_self (w, skm) ss h.symm
  | block => rw [hd] at h; cases h
  | full => rw [hd] at h; cases h

/-- Dropping a task filters it out of both queues and touches nothing else. -/
theorem removeWaiter_spec (task : ℕ) (e : Endpoint) :
    (e.removeWaiter task).1 = (e.chan.receivers.any (fun w => w == task) ||
      e.chan.senders.any (fun w => w.1 == task)) ∧
    (e.removeWaiter task).2.chan =
      { ring := e.chan.ring
        receivers := e.chan.receivers.filter (fun w => !(w == task))
        senders := e.chan.senders.filter (fun w => !(w.1 == task)) } := by
  obtain ⟨hr, hrl⟩ := ArrayQueue.removeFrom_spec (fun w => w == task) 0 e.recvWaiters
  obtain ⟨hs, hsl⟩ := ArrayQueue.removeFrom_spec (fun w => w.1 == task) 0 e.sendWaiters
  constructor
  · simpa [removeWaiter, chan] using congrArg₂ (· || ·) hr hs
  · simpa [removeWaiter, chan] using And.intro hrl hsl

/-- Dropping a task that stands in neither queue does nothing. -/
theorem removeWaiter_of_absent {task : ℕ} {e : Endpoint} (hr : task ∉ e.chan.receivers)
    (hs : task ∉ e.chan.senders.map Prod.fst) : e.removeWaiter task = (false, e) := by
  have h₁ : e.recvWaiters.removeFrom (fun w => w == task) 0 = (false, e.recvWaiters) := by
    apply ArrayQueue.removeFrom_of_forall
    intro w hw
    have hne : w ≠ task := fun h => hr (h ▸ hw)
    simpa using hne
  have h₂ : e.sendWaiters.removeFrom (fun w => w.1 == task) 0 = (false, e.sendWaiters) := by
    apply ArrayQueue.removeFrom_of_forall
    intro w hw
    have hne : w.1 ≠ task := fun h => hs (h ▸ List.mem_map_of_mem hw)
    simpa using hne
  simp [removeWaiter, h₁, h₂]

/-- Every message slot satisfies `P`, live or stale. -/
structure Holds (P : KMessage → Prop) (e : Endpoint) : Prop where
  ring : ∀ km ∈ e.ring.slots, P km
  senders : ∀ w ∈ e.sendWaiters.slots, P w.2

variable {P : KMessage → Prop} {e : Endpoint}

theorem Holds.new (h : P .empty) : Holds P Endpoint.new where
  ring km hkm := by
    obtain ⟨-, rfl⟩ := Vector.mem_replicate.mp hkm
    exact h
  senders w hw := by
    obtain ⟨-, rfl⟩ := Vector.mem_replicate.mp hw
    exact h

theorem Holds.popMsg {e' : Endpoint} {km : KMessage} (h : Holds P e)
    (hpop : e.popMsg = some (km, e')) : P km ∧ Holds P e' := by
  unfold Endpoint.popMsg at hpop
  split at hpop
  · cases hpop
  · rename_i hring
    obtain ⟨rfl, rfl⟩ := Prod.mk.injEq .. ▸ Option.some.inj hpop
    obtain ⟨hmem, hslots⟩ := Ring.mem_slots_pop hring
    exact ⟨h.ring _ hmem, ⟨fun x hx => h.ring x (hslots ▸ hx), h.senders⟩⟩

theorem Holds.pushMsg {km : KMessage} (h : Holds P e) (hkm : P km) :
    Holds P (e.pushMsg km).2 := by
  refine ⟨fun x hx => ?_, h.senders⟩
  rcases Ring.mem_slots_push hx with rfl | hx
  · exact hkm
  · exact h.ring x hx

theorem Holds.pushSendWaiter {km : KMessage} {task : ℕ} (h : Holds P e) (hkm : P km) :
    Holds P (e.pushSendWaiter task km).2 := by
  refine ⟨h.ring, fun x hx => ?_⟩
  rcases ArrayQueue.mem_slots_push hx with rfl | hx
  · exact hkm
  · exact h.senders x hx

theorem Holds.popSendWaiter {e' : Endpoint} {w : ℕ × KMessage} (h : Holds P e)
    (hpop : e.popSendWaiter = some (w, e')) : P w.2 ∧ Holds P e' := by
  unfold Endpoint.popSendWaiter at hpop
  split at hpop
  · cases hpop
  · rename_i hq
    obtain ⟨rfl, rfl⟩ := Prod.mk.injEq .. ▸ Option.some.inj hpop
    obtain ⟨hmem, hrest⟩ := ArrayQueue.mem_slots_pop hq
    exact ⟨h.senders _ hmem, ⟨h.ring, fun x hx => h.senders x (hrest x hx)⟩⟩

theorem Holds.decideSend {me : ℕ} {km : KMessage} (h : Holds P e) (hkm : P km) :
    Holds P (e.decideSend me km).2 := by
  unfold Endpoint.decideSend
  cases hpop : e.popRecvWaiter with
  | some p =>
    unfold popRecvWaiter at hpop
    split at hpop
    · cases hpop
    · obtain rfl := Option.some.inj hpop
      exact ⟨h.ring, h.senders⟩
  | none =>
    have hpush := h.pushMsg hkm
    cases hm : e.pushMsg km with
    | mk ok e₁ =>
      rw [hm] at hpush
      cases ok with
      | true => exact hpush
      | false =>
        have hwait : Holds P (e₁.pushSendWaiter me km).2 := hpush.pushSendWaiter hkm
        cases hw : e₁.pushSendWaiter me km with
        | mk ok e₂ =>
          rw [hw] at hwait
          cases ok <;> simpa [hw] using hwait

theorem Holds.decideRecv {me : ℕ} (h : Holds P e) :
    Holds P (e.decideRecv me).2 ∧ ∀ km, (e.decideRecv me).1.message = some km → P km := by
  unfold Endpoint.decideRecv
  cases hpop : e.popMsg with
  | some p =>
    obtain ⟨km, e₁⟩ := p
    obtain ⟨hkm, h₁⟩ := h.popMsg hpop
    cases hpop₂ : e₁.popSendWaiter with
    | some q =>
      obtain ⟨⟨tid, skm⟩, e₂⟩ := q
      obtain ⟨hskm, h₂⟩ := h₁.popSendWaiter hpop₂
      simp only [hpop₂]
      exact ⟨h₂.pushMsg hskm, by simpa [RecvAction.message] using hkm⟩
    | none =>
      simp only [hpop₂]
      exact ⟨h₁, by simpa [RecvAction.message] using hkm⟩
  | none =>
    cases hw : e.pushRecvWaiter me with
    | mk ok e₁ =>
      have h₁ : Holds P e₁ := by
        have heq : e₁ = (e.pushRecvWaiter me).2 := by rw [hw]
        rw [heq]
        exact ⟨h.ring, h.senders⟩
      cases ok <;> simpa [hw, RecvAction.message] using h₁

end Endpoint

end StarOs.Kernel
