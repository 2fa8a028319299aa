import StarOs.Kernel.Outcome
import Mathlib.Algebra.BigOperators.Group.Finset.Basic
import Mathlib.Data.Fintype.Basic

/-! Every run of the core refines the rendezvous channels, so what holds of them
holds of the endpoints: messages come out in the order they went in, and the wait
queues and the task states tell one story. -/

namespace StarOs.Kernel

open Library

namespace Machine

variable {S : Act → Prop} {k k' : Machine}

theorem init_net (root : UInt64) : (init root).net = Net.empty :=
  Net.ext (funext fun _ => Endpoint.chan_new) rfl rfl

/-- A run from a coherent machine stays coherent, with its queues and its traffic in order. -/
theorem Run.sound (h : Run S k k') (hc : k.Coherent) (hq : k.net.Queued ringCap)
    (hf : k.net.Fifo) : k'.Coherent ∧ k'.net.Queued ringCap ∧ k'.net.Fifo := by
  refine Library.Run.refines net (Net.Step ringCap)
    (P := fun n => n.Queued ringCap ∧ n.Fifo) h hc ⟨hq, hf⟩ ?_ ?_
  · rintro k ⟨heap, act⟩ k' hc ⟨hq, -⟩ - ⟨he, hs⟩
    obtain ⟨k₁, hs₁, hout⟩ := step_outcome heap act hc hq he
    obtain rfl : k₁ = k' := Except.ok.inj (hs₁.symm.trans hs)
    exact hout.refines hc
  · rintro x y ⟨hq, hf⟩ hstep
    exact ⟨hq.step (by decide) hstep, hf.step hq hstep⟩

theorem Run.from_boot {root : UInt64} (h : Run S (init root) k) :
    k.Coherent ∧ k.net.Queued ringCap ∧ k.net.Fifo := by
  apply Run.sound h (init_coherent root)
  · rw [init_net]; exact Net.empty_queued
  · rw [init_net]; exact Net.empty_fifo

theorem Reachable.sound (h : Reachable k) : k.Coherent ∧ k.net.Queued ringCap ∧ k.net.Fifo := by
  obtain ⟨root, hrun⟩ := h
  exact Run.from_boot hrun

theorem Reachable.move {l : Heap × Act} (h : Reachable k) (hm : Move k l k') : Reachable k' := by
  obtain ⟨root, hrun⟩ := h
  exact ⟨root, hrun.tail trivial hm⟩

/-- The one step of a run from a state that meets the invariants. -/
theorem outcome_of_step {heap : Heap} {act : Act} (hc : k.Coherent) (hq : k.net.Queued ringCap)
    (he : k.Enabled act) (hs : k.step heap act = .ok k') : Outcome heap k k' act := by
  obtain ⟨k₁, hs₁, hout⟩ := step_outcome heap act hc hq he
  obtain rfl : k₁ = k' := Except.ok.inj (hs₁.symm.trans hs)
  exact hout

/-! ### Traffic on the endpoints -/

/-- The messages accepted on `ep`, oldest first. -/
def acceptedSends (ep : Fin numEndpoints) : List Event → List KMessage
  | [] => []
  | .sendAccepted _ e km _ :: log =>
    if e = ep then acceptedSends ep log ++ [km] else acceptedSends ep log
  | _ :: log => acceptedSends ep log

/-- How many receives were accepted on `ep`. -/
def acceptedRecvs (ep : Fin numEndpoints) : List Event → ℕ
  | [] => 0
  | .recvAccepted _ e _ :: log => if e = ep then acceptedRecvs ep log + 1 else acceptedRecvs ep log
  | _ :: log => acceptedRecvs ep log

theorem sentOn_traffic (ep : Fin numEndpoints) (log : List Event) :
    Traffic.sentOn ep (traffic log) = acceptedSends ep log := by
  induction log with
  | nil => rfl
  | cons ev log ih =>
    cases ev with
    | sendAccepted t e km via =>
      show Traffic.sentOn ep (.sent t e km :: traffic log) = _
      simp only [Traffic.sentOn, acceptedSends, ih]
    | recvReturned t r => cases r <;> exact ih
    | _ => exact ih

theorem asks_traffic (ep : Fin numEndpoints) (log : List Event) :
    Traffic.asks ep (traffic log) = acceptedRecvs ep log := by
  induction log with
  | nil => rfl
  | cons ev log ih =>
    cases ev with
    | recvAccepted t e via =>
      show Traffic.asks ep (.asked t e :: traffic log) = _
      simp only [Traffic.asks, acceptedRecvs, ih]
    | recvReturned t r => cases r <;> exact ih
    | _ => exact ih

theorem mem_acceptedSends {ep : Fin numEndpoints} {km : KMessage} {log : List Event}
    (h : km ∈ acceptedSends ep log) : ∃ t via, .sendAccepted t ep km via ∈ log := by
  induction log with
  | nil => cases h
  | cons ev log ih =>
    have hskip : km ∈ acceptedSends ep log → ∃ t via, .sendAccepted t ep km via ∈ ev :: log := by
      intro h
      obtain ⟨t, via, hmem⟩ := ih h
      exact ⟨t, via, List.mem_cons_of_mem _ hmem⟩
    cases ev with
    | sendAccepted t e m via =>
      simp only [acceptedSends] at h
      split at h
      · rename_i he
        subst he
        rcases List.mem_append.mp h with hold | hnew
        · exact hskip hold
        · obtain rfl := List.mem_singleton.mp hnew
          exact ⟨t, via, List.mem_cons_self⟩
      · exact hskip h
    | _ => exact hskip h

/-- What a receive returned, a send had accepted. -/
theorem sent_of_returned (hf : k.net.Fifo) {t : ℕ} {km : KMessage}
    (hmem : .recvReturned t (.ok km) ∈ k.log) :
    ∃ s ep via, .sendAccepted s ep km via ∈ k.log := by
  have hgot : Traffic.got t km ∈ traffic k.log :=
    List.mem_filterMap.mpr ⟨_, hmem, rfl⟩
  obtain ⟨ep, hsent⟩ := hf.honest.sent_of_got hgot
  rw [show k.net.history = traffic k.log from rfl, sentOn_traffic] at hsent
  obtain ⟨s, via, h⟩ := mem_acceptedSends hsent
  exact ⟨s, ep, via, h⟩

theorem got_mem_traffic {t : ℕ} {km : KMessage} {log : List Event}
    (h : Traffic.got t km ∈ traffic log) : Event.recvReturned t (.ok km) ∈ log := by
  obtain ⟨ev, hev, heq⟩ := List.mem_filterMap.mp h
  cases ev with
  | recvReturned u r =>
    cases r with
    | ok m =>
      obtain ⟨rfl, rfl⟩ : u = t ∧ m = km := by simpa using heq
      exact hev
    | error e => cases heq
  | _ => cases heq

/-- An unanswered receive was accepted, and nothing came back since. -/
theorem claim_traffic {t : ℕ} {ep : Fin numEndpoints} {n : ℕ} {log : List Event}
    (h : Traffic.claim t (traffic log) = some (ep, n)) :
    ∃ mid via pre, log = mid ++ .recvAccepted t ep via :: pre ∧
      ∀ m, .recvReturned t (.ok m) ∉ mid := by
  induction log with
  | nil => cases h
  | cons ev log ih =>
    have hskip : ∀ ev : Event, (∀ m, ev ≠ .recvReturned t (.ok m)) →
        Traffic.claim t (traffic log) = some (ep, n) →
        ∃ mid via pre, ev :: log = mid ++ .recvAccepted t ep via :: pre ∧
          ∀ m, .recvReturned t (.ok m) ∉ mid := by
      intro ev hev h
      obtain ⟨mid, via, pre, rfl, hmid⟩ := ih h
      refine ⟨ev :: mid, via, pre, rfl, fun m hm => ?_⟩
      rcases List.mem_cons.mp hm with heq | hm
      · exact hev m heq.symm
      · exact hmid m hm
    cases ev with
    | recvAccepted u e via =>
      have h : (if u = t then some (e, Traffic.asks e (traffic log)) else
        Traffic.claim t (traffic log)) = some (ep, n) := h
      by_cases hu : u = t
      · subst hu
        rw [if_pos rfl] at h
        obtain ⟨rfl, -⟩ : e = ep ∧ _ := by simpa using h
        exact ⟨[], via, log, rfl, by simp⟩
      · rw [if_neg hu] at h
        exact hskip _ (by simp) h
    | recvReturned u r =>
      cases r with
      | error e => exact hskip _ (by simp) h
      | ok m =>
        have h : (if u = t then none else Traffic.claim t (traffic log)) = some (ep, n) := h
        by_cases hu : u = t
        · rw [if_pos hu] at h
          cases h
        · rw [if_neg hu] at h
          refine hskip _ (fun m' => ?_) h
          simp [hu]
    | _ => exact hskip _ (by simp) h

theorem Outcome.declined {heap : Heap} {act : Act} (h : Outcome heap k k' act) :
    k'.ipc = k.ipc ∨ Grew (fun ev => ev.declines = false) k k' := by
  cases h with
  | quiet h => exact .inl h.ipc
  | joined _ _ _ _ _ _ hipc => exact .inl hipc
  | served t x hk hx h =>
    cases h with
    | early rc h => exact .inl h.own.ipc
    | quiet hcall h => exact .inl h.ipc
    | sent hcall ep obj km hent h => exact h.declined
    | received hcall ep obj corrupt hauth hwrite h => exact h.declined
    | revoked _ _ _ _ _ hipc => exact .inl hipc
  | sent t hk h => exact h.declined
  | received t x hk hx h => exact h.declined
  | stored t x mem hk hx h => exact .inl (h ▸ rfl)
  | created _ _ hipc => exact .inl hipc
  | destroyed _ _ hipc => exact .inl hipc
  | resumed h =>
    cases h with
    | quiet h => exact .inl h.ipc
    | delivered _ _ _ _ _ _ _ _ _ _ _ _ _ hipc => exact .inl hipc

/-- First in, first out, through every way a message can take: in any reachable
state, the receive accepted as number `n` on an endpoint returned the message
accepted as number `n` there, whatever is returned was asked for, the messages not
yet claimed wait on the endpoint in order, and a call that fails touches no endpoint. -/
theorem endpoints_fifo (h : Reachable k) :
    (∀ post mid pre t ep via km,
      k.log = post ++ .recvReturned t (.ok km) :: (mid ++ .recvAccepted t ep via :: pre) →
      (∀ m, .recvReturned t (.ok m) ∉ mid) →
      (acceptedSends ep k.log)[acceptedRecvs ep pre]? = some km) ∧
    (∀ post rest t km, k.log = post ++ .recvReturned t (.ok km) :: rest →
      ∃ mid ep via pre, rest = mid ++ .recvAccepted t ep via :: pre ∧
        ∀ m, .recvReturned t (.ok m) ∉ mid) ∧
    (∀ ep, (acceptedSends ep k.log).drop
        (acceptedRecvs ep k.log - (k.ipc ep).recvWaiters.toList.length) =
      (k.ipc ep).ring.toList ++ (k.ipc ep).sendWaiters.toList.map Prod.snd) ∧
    (∀ heap act k' evs ev, k.Enabled act → k.step heap act = .ok k' → k'.log = evs ++ k.log →
      ev ∈ evs → ev.declines → k'.ipc = k.ipc) := by
  obtain ⟨hc, hq, hf⟩ := h.sound
  refine ⟨?_, ?_, ?_, ?_⟩
  · intro post mid pre t ep via km hlog hmid
    have hhon := hf.honest
    have htr : k.net.history = traffic post ++ .got t km ::
        (traffic mid ++ .asked t ep :: traffic pre) := by
      show traffic k.log = _
      rw [hlog]
      simp [traffic, List.filterMap_append]
    rw [htr] at hhon
    have hans := hhon.answer fun m hm => hmid m (got_mem_traffic hm)
    rw [← htr, asks_traffic] at hans
    rwa [← sentOn_traffic]
  · intro post rest t km hlog
    have hhon := hf.honest
    have htr : k.net.history = traffic post ++ .got t km :: traffic rest := by
      show traffic k.log = _
      rw [hlog]
      simp [traffic, List.filterMap_append]
    rw [htr] at hhon
    obtain ⟨⟨ep, n, hclaim, -⟩, -⟩ := hhon.drop
    obtain ⟨mid, via, pre, hrest, hmid⟩ := claim_traffic hclaim
    exact ⟨mid, ep, via, pre, hrest, hmid⟩
  · intro ep
    have hpend := (hf.inOrder ep).pending
    rw [show k.net.history = traffic k.log from rfl, sentOn_traffic, asks_traffic] at hpend
    exact hpend
  · intro heap act k' evs ev he hs hlog hev hdec
    rcases (outcome_of_step hc hq he hs).declined with hipc | ⟨evs', hlog', hall⟩
    · exact hipc
    · obtain rfl : evs = evs' := List.append_cancel_right (hlog.symm.trans hlog')
      rw [hall ev hev] at hdec
      cases hdec

/-- Task 0 parks in a receive on endpoint 1, task 1 sends there, task 0 runs again. -/
def exchange : List Act :=
  [.spawn (some 0x1000) none [], .spawn (some 0x2000) none [], .start, .resume, .recv 1, .resume,
    .send 1 ⟨Message.new 7, none⟩, .timer, .resume]

/-- The message handed over while its receiver slept is the one it came back with. -/
theorem endpoints_fifo_exchange :
    (acceptedSends replyEp (after exchange).log)[acceptedRecvs replyEp
      [.spawned 1 [], .spawned 0 []]]? = some ⟨Message.new 7, none⟩ :=
  (endpoints_fifo (after_reachable (by decide))).1 []
    [.sendReturned 1 (.ok ()), .sendAccepted 1 replyEp ⟨Message.new 7, none⟩ none]
    [.spawned 1 [], .spawned 0 []] 0 replyEp none ⟨Message.new 7, none⟩ rfl (by simp)

/-! ### The wait queues and the task states -/

/-- How often task `i` stands in a wait queue, over all endpoints. -/
def standing (i : ℕ) (k : Machine) : ℕ :=
  ∑ ep, ((k.ipc ep).recvWaiters.toList.count i +
    ((k.ipc ep).sendWaiters.toList.map Prod.fst).count i)

section

variable {i : ℕ} {x : Task}

theorem standing_eq_zero (hq : k.net.Queued ringCap) (hx : k.tasks[i]? = some x)
    (hst : x.state ≠ .blocked) : k.standing i = 0 := by
  refine Finset.sum_eq_zero fun ep _ => ?_
  have hrecv : i ∉ (k.net.chan ep).receivers := by
    intro hmem
    obtain ⟨y, c, hy, hb, -⟩ := phase_receiving ((hq.receiving ep i).mp hmem)
    exact hst (Option.some.inj (hx.symm.trans hy) ▸ hb)
  have hsend : i ∉ (k.net.chan ep).senders.map Prod.fst := by
    intro hmem
    obtain ⟨y, c, hy, hb, -⟩ := phase_sending ((hq.sending ep i).mp hmem)
    exact hst (Option.some.inj (hx.symm.trans hy) ▸ hb)
  exact Nat.add_eq_zero_iff.mpr ⟨List.count_eq_zero.mpr hrecv, List.count_eq_zero.mpr hsend⟩

theorem standing_eq_one (hc : k.Coherent) (hq : k.net.Queued ringCap) (hx : k.tasks[i]? = some x)
    (hst : x.state = .blocked) : k.standing i = 1 := by
  have hok := hc.ok i x hx
  simp only [Task.Ok, hst] at hok
  obtain ⟨r, hctx, hparks, -⟩ := hok
  have hphase : k.net.phase i = r.waits := by
    show k.phase i = _
    rw [phase_eq hx]
    simp [Task.phase, hst, hctx]
  have hno : ∀ {p : Phase (Fin numEndpoints) KMessage} {l : List ℕ}, (i ∈ l ↔ k.net.phase i = p) →
      r.waits ≠ p → l.count i = 0 := by
    intro p l hiff hne
    exact List.count_eq_zero.mpr fun hmem => hne (hphase ▸ hiff.mp hmem)
  have hyes : ∀ {p : Phase (Fin numEndpoints) KMessage} {l : List ℕ}, (i ∈ l ↔ k.net.phase i = p) →
      l.Nodup → r.waits = p → l.count i = 1 := by
    intro p l hiff hnd heq
    exact List.count_eq_one_of_mem hnd (hiff.mpr (hphase.trans heq))
  cases r with
  | recvParked ep c =>
    rw [standing, Finset.sum_eq_single ep]
    · exact congrArg₂ (· + ·) (hyes (hq.receiving ep i) (hq.receivers_nodup ep) rfl)
        (hno (hq.sending ep i) (by simp [Resume.waits]))
    · intro e _ hne
      exact Nat.add_eq_zero_iff.mpr ⟨hno (hq.receiving e i) (by simpa [Resume.waits] using hne.symm),
        hno (hq.sending e i) (by simp [Resume.waits])⟩
    · intro hmem
      exact absurd (Finset.mem_univ ep) hmem
  | sendParked ep c =>
    rw [standing, Finset.sum_eq_single ep]
    · exact congrArg₂ (· + ·) (hno (hq.receiving ep i) (by simp [Resume.waits]))
        (hyes (hq.sending ep i) (hq.senders_nodup ep) rfl)
    · intro e _ hne
      exact Nat.add_eq_zero_iff.mpr ⟨hno (hq.receiving e i) (by simp [Resume.waits]),
        hno (hq.sending e i) (by simpa [Resume.waits] using hne.symm)⟩
    · intro hmem
      exact absurd (Finset.mem_univ ep) hmem
  | _ => cases hparks

/-- With no continuation pending, a mailbox is full for a woken receiver only. -/
theorem Coherent.mailbox_full {m : KMessage} (hc : k.Coherent) (hl : k.loaded = none)
    (hx : k.tasks[i]? = some x) (hm : x.mailbox = some m) :
    x.state = .ready ∧ ∃ ep caller, x.ctx = .saved (.recvParked ep caller) := by
  have hok := hc.ok i x hx
  cases hst : x.state with
  | ready =>
    simp only [Task.Ok, hst, hm, Option.isSome_some] at hok
    obtain ⟨r, hctx, -, hr, -⟩ := hok
    refine ⟨rfl, ?_⟩
    cases r with
    | recvParked ep c => exact ⟨ep, c, hctx⟩
    | _ => cases hr
  | running => simp [Task.Ok, hst, hm, hl] at hok
  | blocked => simp [Task.Ok, hst, hm] at hok
  | dead => simp [Task.Ok, hst, hm] at hok

/-- A parked receiver's mailbox is empty. -/
theorem Coherent.receiver_mailbox (hc : k.Coherent) (hq : k.net.Queued ringCap)
    {ep : Fin numEndpoints} (hmem : i ∈ (k.ipc ep).recvWaiters.toList) :
    ∃ x, k.tasks[i]? = some x ∧ x.state = .blocked ∧ x.mailbox = none := by
  obtain ⟨x, c, hx, hb, -⟩ := phase_receiving ((hq.receiving ep i).mp hmem)
  have hok := hc.ok i x hx
  simp only [Task.Ok, hb] at hok
  obtain ⟨r, -, -, hmail, -⟩ := hok
  exact ⟨x, hx, hb, hmail⟩

end

/-- In every reachable state: blocked is standing in one queue once, and nobody else
stands in any; nobody sleeps while its wake-up condition holds; a mailbox is full only
for a woken receiver, so a hand-over never overwrites one; nothing panics; and a task
that exits stands in no queue. -/
theorem queues_and_states (h : Reachable k) :
    (∀ (i : ℕ) (x : Task), k.tasks[i]? = some x →
      (x.state = .blocked ↔ k.standing i = 1) ∧ (x.state ≠ .blocked → k.standing i = 0)) ∧
    (∀ ep, (k.ipc ep).recvWaiters.toList ≠ [] →
      (k.ipc ep).ring.toList = [] ∧ (k.ipc ep).sendWaiters.toList = []) ∧
    (∀ ep, (k.ipc ep).sendWaiters.toList ≠ [] → (k.ipc ep).ring.toList.length = ringCap) ∧
    (∀ (i : ℕ) (x : Task) (m : KMessage), k.loaded = none → k.tasks[i]? = some x →
      x.mailbox = some m →
      x.state = .ready ∧ ∃ ep caller, x.ctx = .saved (.recvParked ep caller)) ∧
    (∀ ep w, w ∈ (k.ipc ep).recvWaiters.toList →
      ∃ x, k.tasks[w]? = some x ∧ x.state = .blocked ∧ x.mailbox = none) ∧
    (∀ heap act, k.Enabled act → ∃ k', k.step heap act = .ok k') ∧
    (∀ t, k.loaded = none → k.current = some t → k.forgetTask t = (0, k)) := by
  obtain ⟨hc, hq, -⟩ := h.sound
  refine ⟨?_, hq.starved, hq.full, ?_, ?_, ?_, ?_⟩
  · intro i x hx
    refine ⟨⟨standing_eq_one hc hq hx, fun hone => ?_⟩, standing_eq_zero hq hx⟩
    by_contra hst
    rw [standing_eq_zero hq hx hst] at hone
    cases hone
  · intro i x m hl hx hm
    exact hc.mailbox_full hl hx hm
  · intro ep w hmem
    exact hc.receiver_mailbox hq hmem
  · intro heap act he
    obtain ⟨k', hs, -⟩ := step_outcome heap act hc hq he
    exact ⟨k', hs⟩
  · intro t hl hk
    obtain ⟨-, -, -, -, hfree⟩ := hc.current_task hk hl
    exact forgetTask_of_free hq hfree

/-- In the exchange, the receiver stands in one queue while the sender runs. -/
theorem queues_and_states_exchange : (after (exchange.take 6)).standing 0 = 1 :=
  (((queues_and_states (after_reachable (by decide))).1 0 _ rfl).1).mp rfl

end Machine

end StarOs.Kernel
