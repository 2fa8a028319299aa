import StarOs.Kernel.Sched

/-! A dying task leaves every queue. `remove_waiter` is written out with its two loops; they are
over after a turn for each entry, and filter both queues. -/

namespace StarOs.Kernel

open Library Library.Loop

namespace Endpoint

/-- `remove_waiter` as its two loops, with the turns each of them is given. -/
def removeWaiterLoops (turns task : ℕ) (e : Endpoint) : Option (Bool × Endpoint) := do
  let (_, found, recvWaiters) ←
    whileSome (ArrayQueue.scanTurn fun w => w == task) turns (0, false, e.recvWaiters)
  let (_, found, sendWaiters) ←
    whileSome (ArrayQueue.scanTurn fun w => w.1 == task) turns (0, found, e.sendWaiters)
  return (found, { e with recvWaiters := recvWaiters, sendWaiters := sendWaiters })

/-- The task waits at the endpoint. -/
def Stands (task : ℕ) (e : Endpoint) : Prop :=
  task ∈ e.chan.receivers ∨ task ∈ e.chan.senders.map Prod.fst

instance (task : ℕ) (e : Endpoint) : Decidable (e.Stands task) :=
  inferInstanceAs (Decidable (_ ∨ _))

/-- The loops are over after as many turns as the arrays are long. -/
theorem removeWaiterLoops_eq {task turns : ℕ} (e : Endpoint) (h : maxWaiters ≤ turns) :
    e.removeWaiterLoops turns task = some (e.removeWaiter task) := by
  have hr := e.recvWaiters.len_le
  have hs := e.sendWaiters.len_le
  obtain ⟨_, hrecv⟩ :=
    ArrayQueue.scan_ends (fun w => w == task) 0 e.recvWaiters false turns (by omega)
  rw [Bool.false_or] at hrecv
  obtain ⟨_, hsend⟩ := ArrayQueue.scan_ends (fun w => w.1 == task) 0 e.sendWaiters
    (e.recvWaiters.removeFrom (fun w => w == task) 0).1 turns (by omega)
  simp only [removeWaiterLoops, hrecv, Option.bind_eq_bind, Option.bind_some, hsend, removeWaiter,
    pure]

theorem removeWaiter_found (task : ℕ) (e : Endpoint) :
    (e.removeWaiter task).1 = true ↔ e.Stands task := by
  obtain ⟨hfound, -⟩ := removeWaiter_spec task e
  rw [hfound, Bool.or_eq_true, List.any_eq_true, List.any_eq_true]
  simp [Stands]

theorem removeWaiter_queues (task : ℕ) (e : Endpoint) :
    (e.removeWaiter task).2.recvWaiters.toList =
        e.recvWaiters.toList.filter (fun w => w ≠ task) ∧
      (e.removeWaiter task).2.sendWaiters.toList =
        e.sendWaiters.toList.filter (fun w => w.1 ≠ task) := by
  obtain ⟨-, hchan⟩ := removeWaiter_spec task e
  have hpred : ∀ n : ℕ, (!(n == task)) = decide (n ≠ task) := fun n => by
    by_cases h : n = task <;> simp [h]
  simp only [hpred] at hchan
  exact ⟨congrArg Chan.receivers hchan, congrArg Chan.senders hchan⟩

/-- Something goes exactly when the queues get shorter. -/
theorem removeWaiter_shorter (task : ℕ) (e : Endpoint) :
    (e.removeWaiter task).2.recvWaiters.len + (e.removeWaiter task).2.sendWaiters.len <
        e.recvWaiters.len + e.sendWaiters.len ↔ e.Stands task := by
  obtain ⟨hrecv, hsend⟩ := removeWaiter_queues task e
  have hlr := congrArg List.length hrecv
  have hls := congrArg List.length hsend
  rw [ArrayQueue.length_toList] at hlr hls
  have hr := List.length_filter_le (fun w => decide (w ≠ task)) e.recvWaiters.toList
  have hs := List.length_filter_le (fun w : ℕ × KMessage => decide (w.1 ≠ task)) e.sendWaiters.toList
  have hr' : (e.recvWaiters.toList.filter fun w => w ≠ task).length < e.recvWaiters.toList.length ↔
      task ∈ e.chan.receivers := by
    rw [List.length_filter_lt_length_iff_exists]
    simp [chan]
  have hs' : (e.sendWaiters.toList.filter fun w => w.1 ≠ task).length <
      e.sendWaiters.toList.length ↔ task ∈ e.chan.senders.map Prod.fst := by
    rw [List.length_filter_lt_length_iff_exists]
    simp [chan]
  rw [ArrayQueue.length_toList] at hr hr' hs hs'
  rw [Stands, ← hr', ← hs', hlr, hls]
  omega

/-- `remove_waiter` ends, leaves the ring as it is, and filters the task out of both queues; it
answers whether anything went. -/
theorem removeWaiter_filters (task : ℕ) (e : Endpoint) :
    ∃ found e', (∀ turns ≥ maxWaiters, e.removeWaiterLoops turns task = some (found, e')) ∧
      e'.ring = e.ring ∧
      e'.recvWaiters.toList = e.recvWaiters.toList.filter (fun w => w ≠ task) ∧
      e'.sendWaiters.toList = e.sendWaiters.toList.filter (fun w => w.1 ≠ task) ∧
      (found = true ↔
        e'.recvWaiters.len + e'.sendWaiters.len < e.recvWaiters.len + e.sendWaiters.len) ∧
      (found = true ↔ e.Stands task) := by
  obtain ⟨hrecv, hsend⟩ := removeWaiter_queues task e
  have hfound := removeWaiter_found task e
  exact ⟨_, _, fun _ hturns => removeWaiterLoops_eq e hturns, rfl, hrecv, hsend,
    hfound.trans (removeWaiter_shorter task e).symm, hfound⟩

end Endpoint

/-- `forget_task` counts the endpoints the task waits at, and it waits at none of them after. -/
theorem Machine.forgetTask_spec (i : ℕ) (k : Machine) :
    (k.forgetTask i).1 = (List.finRange numEndpoints).countP (fun ep => (k.ipc ep).Stands i) ∧
      ∀ ep, ¬((k.forgetTask i).2.ipc ep).Stands i := by
  constructor
  · refine List.countP_congr fun ep _ => ?_
    rw [decide_eq_true_eq]
    exact (k.ipc ep).removeWaiter_found i
  · rintro ep (hr | hs)
    · have hmem : i ∈ ((k.ipc ep).removeWaiter i).2.recvWaiters.toList := hr
      rw [((k.ipc ep).removeWaiter_queues i).1] at hmem
      simp at hmem
    · have hmem : i ∈ ((k.ipc ep).removeWaiter i).2.sendWaiters.toList.map Prod.fst := hs
      rw [((k.ipc ep).removeWaiter_queues i).2] at hmem
      simp at hmem

end StarOs.Kernel
