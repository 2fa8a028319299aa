import Mathlib.Data.List.Basic
import Mathlib.Logic.Function.Basic
import Mathlib.Tactic.Common

/-! Rendezvous channels as a transition system. Parties of type `ι` send messages
of type `M` to, and receive them from, channels of type `ε`; a channel is a
bounded ring with a queue of parked receivers and a queue of parked senders. The
state remembers its traffic, newest event first, and the two invariants say that
the queues agree with the parties' phases and that every receive is answered in
order. -/

namespace StarOs.Library

variable {ι ε M : Type} [DecidableEq ι] [DecidableEq ε]

/-- One event on the wire: a send or a receive was accepted, or a receive returned. -/
inductive Traffic (ι ε M : Type) where
  | sent (t : ι) (e : ε) (m : M)
  | asked (t : ι) (e : ε)
  | got (t : ι) (m : M)

namespace Traffic

/-- The messages accepted on `e`, oldest first. -/
def sentOn (e : ε) : List (Traffic ι ε M) → List M
  | [] => []
  | sent _ c m :: h => if c = e then sentOn e h ++ [m] else sentOn e h
  | asked _ _ :: h => sentOn e h
  | got _ _ :: h => sentOn e h

/-- How many receives were accepted on `e`. -/
def asks (e : ε) : List (Traffic ι ε M) → ℕ
  | [] => 0
  | sent _ _ _ :: h => asks e h
  | asked _ c :: h => if c = e then asks e h + 1 else asks e h
  | got _ _ :: h => asks e h

/-- The receive of `t` still unanswered: its channel and its number there. -/
def claim (t : ι) : List (Traffic ι ε M) → Option (ε × ℕ)
  | [] => none
  | sent _ _ _ :: h => claim t h
  | asked u e :: h => if u = t then some (e, asks e h) else claim t h
  | got u _ :: h => if u = t then none else claim t h

/-- Every receive is asked for once, and answered by the send of its own number. -/
def Honest : List (Traffic ι ε M) → Prop
  | [] => True
  | sent _ _ _ :: h => Honest h
  | asked t _ :: h => claim t h = none ∧ Honest h
  | got t m :: h => (∃ e k, claim t h = some (e, k) ∧ (sentOn e h)[k]? = some m) ∧ Honest h

omit [DecidableEq ι] in
theorem sentOn_append (e : ε) (later h : List (Traffic ι ε M)) :
    sentOn e (later ++ h) = sentOn e h ++ sentOn e later := by
  induction later with
  | nil => simp [sentOn]
  | cons ev later ih =>
    cases ev with
    | sent t c m => by_cases hc : c = e <;> simp [sentOn, hc, ih]
    | asked t c => simpa [sentOn] using ih
    | got t m => simpa [sentOn] using ih

theorem Honest.drop {later h : List (Traffic ι ε M)} (hh : Honest (later ++ h)) : Honest h := by
  induction later with
  | nil => exact hh
  | cons ev later ih =>
    cases ev with
    | sent t c m => exact ih hh
    | asked t c => exact ih hh.2
    | got t m => exact ih hh.2

/-- Until it is answered, a receive keeps its number. -/
theorem claim_of_unanswered {t : ι} {e : ε} {mid pre : List (Traffic ι ε M)}
    (hh : Honest (mid ++ asked t e :: pre)) (hmid : ∀ m, got t m ∉ mid) :
    claim t (mid ++ asked t e :: pre) = some (e, asks e pre) := by
  induction mid with
  | nil => simp [claim]
  | cons ev mid ih =>
    have hrest : ∀ m, got t m ∉ mid := fun m hm => hmid m (List.mem_cons_of_mem _ hm)
    cases ev with
    | sent u c m => simpa [claim] using ih hh hrest
    | asked u c =>
      have hut : u ≠ t := by
        intro hut
        have hnone : claim u (mid ++ asked t e :: pre) = none := hh.1
        rw [hut, ih hh.2 hrest] at hnone
        cases hnone
      simpa [claim, hut] using ih hh.2 hrest
    | got u m =>
      have hut : u ≠ t := by
        intro hut
        exact hmid m (by simp [hut])
      simpa [claim, hut] using ih hh.2 hrest

/-- In an honest history the receive numbered `k` on a channel returns the
message numbered `k` on that channel. -/
theorem Honest.answer {t : ι} {e : ε} {m : M} {post mid pre : List (Traffic ι ε M)}
    (hh : Honest (post ++ got t m :: (mid ++ asked t e :: pre))) (hmid : ∀ m, got t m ∉ mid) :
    (sentOn e (post ++ got t m :: (mid ++ asked t e :: pre)))[asks e pre]? = some m := by
  obtain ⟨⟨c, k, hclaim, hk⟩, hrest⟩ := hh.drop
  rw [claim_of_unanswered hrest hmid] at hclaim
  obtain ⟨rfl, rfl⟩ : e = c ∧ asks e pre = k := by simpa using hclaim
  obtain ⟨hlt, -⟩ := List.getElem?_eq_some_iff.mp hk
  rw [sentOn_append, sentOn, List.getElem?_append_left hlt, hk]

omit [DecidableEq ι] in
theorem sentOn_subset {e : ε} {m : M} {later h : List (Traffic ι ε M)} (hm : m ∈ sentOn e h) :
    m ∈ sentOn e (later ++ h) := by
  rw [sentOn_append]
  exact List.mem_append_left _ hm

/-- What an honest history returned was sent. -/
theorem Honest.sent_of_got {t : ι} {m : M} {h : List (Traffic ι ε M)} (hh : Honest h)
    (hm : got t m ∈ h) : ∃ e, m ∈ sentOn e h := by
  obtain ⟨post, pre, rfl⟩ := List.append_of_mem hm
  obtain ⟨⟨e, k, -, hk⟩, -⟩ := hh.drop
  refine ⟨e, ?_⟩
  have hmem : m ∈ sentOn e (got t m :: pre) := List.mem_of_getElem? hk
  exact sentOn_subset hmem

end Traffic

/-- A channel: buffered messages, parked receivers and parked senders. -/
structure Chan (ι M : Type) where
  ring : List M
  receivers : List ι
  senders : List (ι × M)

/-- What a party is doing; one that left does not come back. -/
inductive Phase (ε M : Type) where
  | absent
  | free
  | receiving (e : ε)
  | handed (m : M)
  | sending (e : ε)
  | released
  | gone

/-- The whole system. -/
@[ext] structure Net (ι ε M : Type) where
  chan : ε → Chan ι M
  phase : ι → Phase ε M
  history : List (Traffic ι ε M)

namespace Net

open Traffic

/-- One transition. `cap` is the ring's capacity. -/
inductive Step (cap : ℕ) : Net ι ε M → Net ι ε M → Prop
  /-- a send hands its message straight to the first parked receiver -/
  | handOver {n : Net ι ε M} {t w : ι} {e : ε} {m : M} {rest : List ι}
      (ht : n.phase t = .free) (hw : (n.chan e).receivers = w :: rest) :
      Step cap n
        { chan := Function.update n.chan e { n.chan e with receivers := rest }
          phase := Function.update n.phase w (.handed m)
          history := .sent t e m :: n.history }
  /-- a send buffers its message -/
  | buffer {n : Net ι ε M} {t : ι} {e : ε} {m : M}
      (ht : n.phase t = .free) (hw : (n.chan e).receivers = [])
      (hroom : (n.chan e).ring.length < cap) :
      Step cap n
        { chan := Function.update n.chan e { n.chan e with ring := (n.chan e).ring ++ [m] }
          phase := n.phase
          history := .sent t e m :: n.history }
  /-- a send finds the ring full and parks -/
  | parkSend {n : Net ι ε M} {t : ι} {e : ε} {m : M}
      (ht : n.phase t = .free) (hw : (n.chan e).receivers = [])
      (hfull : (n.chan e).ring.length = cap) :
      Step cap n
        { chan := Function.update n.chan e { n.chan e with senders := (n.chan e).senders ++ [(t, m)] }
          phase := Function.update n.phase t (.sending e)
          history := .sent t e m :: n.history }
  /-- a receive takes a buffered message and nobody was waiting to deposit another -/
  | take {n : Net ι ε M} {t : ι} {e : ε} {m : M} {rest : List M}
      (ht : n.phase t = .free) (hring : (n.chan e).ring = m :: rest)
      (hs : (n.chan e).senders = []) :
      Step cap n
        { chan := Function.update n.chan e { n.chan e with ring := rest }
          phase := n.phase
          history := .got t m :: .asked t e :: n.history }
  /-- a receive takes a buffered message and the first parked sender deposits its own -/
  | takeAndWake {n : Net ι ε M} {t s : ι} {e : ε} {m sm : M} {rest : List M} {ss : List (ι × M)}
      (ht : n.phase t = .free) (hring : (n.chan e).ring = m :: rest)
      (hs : (n.chan e).senders = (s, sm) :: ss) :
      Step cap n
        { chan := Function.update n.chan e { n.chan e with ring := rest ++ [sm], senders := ss }
          phase := Function.update n.phase s .released
          history := .got t m :: .asked t e :: n.history }
  /-- a receive finds nothing and parks -/
  | parkRecv {n : Net ι ε M} {t : ι} {e : ε}
      (ht : n.phase t = .free) (hring : (n.chan e).ring = []) :
      Step cap n
        { chan := Function.update n.chan e { n.chan e with receivers := (n.chan e).receivers ++ [t] }
          phase := Function.update n.phase t (.receiving e)
          history := .asked t e :: n.history }
  /-- a woken receiver runs again and returns its message -/
  | resumeRecv {n : Net ι ε M} {t : ι} {m : M} (ht : n.phase t = .handed m) :
      Step cap n
        { chan := n.chan
          phase := Function.update n.phase t .free
          history := .got t m :: n.history }
  /-- a woken sender runs again -/
  | resumeSend {n : Net ι ε M} {t : ι} (ht : n.phase t = .released) :
      Step cap n { n with phase := Function.update n.phase t .free }
  /-- a party joins -/
  | join {n : Net ι ε M} {t : ι} (ht : n.phase t = .absent) :
      Step cap n { n with phase := Function.update n.phase t .free }
  /-- a party leaves -/
  | leave {n : Net ι ε M} {t : ι} (ht : n.phase t = .free) :
      Step cap n { n with phase := Function.update n.phase t .gone }

/-- The queues and the phases tell one story: a party is parked exactly when it
stands in one queue, once, and nobody is parked while its wake-up condition holds. -/
structure Queued (cap : ℕ) (n : Net ι ε M) : Prop where
  receiving : ∀ e t, t ∈ (n.chan e).receivers ↔ n.phase t = .receiving e
  sending : ∀ e t, t ∈ (n.chan e).senders.map Prod.fst ↔ n.phase t = .sending e
  receivers_nodup : ∀ e, (n.chan e).receivers.Nodup
  senders_nodup : ∀ e, ((n.chan e).senders.map Prod.fst).Nodup
  starved : ∀ e, (n.chan e).receivers ≠ [] → (n.chan e).ring = [] ∧ (n.chan e).senders = []
  full : ∀ e, (n.chan e).senders ≠ [] → (n.chan e).ring.length = cap
  bounded : ∀ e, (n.chan e).ring.length ≤ cap

/-- Messages leave the channel in the order they were accepted: of the `sent`
messages, all but those owed to the `asked` receives already served are still
there, in order. -/
structure InOrder (ch : Chan ι M) (asked : ℕ) (sent : List M) : Prop where
  parked_le : ch.receivers.length ≤ asked
  served_le : asked - ch.receivers.length ≤ sent.length
  pending : sent.drop (asked - ch.receivers.length) = ch.ring ++ ch.senders.map Prod.snd

/-- Every channel is in order, and every receive is owed the message of its own
number. -/
structure Fifo (n : Net ι ε M) : Prop where
  inOrder : ∀ e, InOrder (n.chan e) (asks e n.history) (sentOn e n.history)
  owed : ∀ e j t, (n.chan e).receivers[j]? = some t →
    claim t n.history = some (e, asks e n.history - (n.chan e).receivers.length + j)
  held : ∀ t m, n.phase t = .handed m →
    ∃ e k, claim t n.history = some (e, k) ∧ (sentOn e n.history)[k]? = some m
  unclaimed : ∀ t, (claim t n.history).isSome →
    (∃ e, n.phase t = .receiving e) ∨ ∃ m, n.phase t = .handed m
  honest : Honest n.history

variable {cap : ℕ} {n n' : Net ι ε M}

omit [DecidableEq ε] in
/-- A party that stands in no queue may do anything but stand in one. -/
theorem Queued.rephase {t : ι} {p : Phase ε M} (h : List (Traffic ι ε M)) (hq : n.Queued cap)
    (hold : ∀ e, n.phase t ≠ .receiving e ∧ n.phase t ≠ .sending e)
    (hnew : ∀ e, p ≠ .receiving e ∧ p ≠ .sending e) :
    Queued cap ⟨n.chan, Function.update n.phase t p, h⟩ := by
  obtain ⟨hrecv, hsend, hrnd, hsnd, hstarved, hfull, hbound⟩ := hq
  refine ⟨fun e u => ?_, fun e u => ?_, hrnd, hsnd, hstarved, hfull, hbound⟩
  · dsimp only
    by_cases hu : u = t
    · rw [hu, hrecv e t, Function.update_self]
      exact iff_of_false (hold e).1 (hnew e).1
    · rw [hrecv e u, Function.update_of_ne hu]
  · dsimp only
    by_cases hu : u = t
    · rw [hu, hsend e t, Function.update_self]
      exact iff_of_false (hold e).2 (hnew e).2
    · rw [hsend e u, Function.update_of_ne hu]

theorem Queued.step (hq : n.Queued cap) (hcap : 0 < cap) (hs : Step cap n n') : n'.Queued cap := by
  have ⟨hrecv, hsend, hrnd, hsnd, hstarved, hfull, hbound⟩ := hq
  cases hs with
  | @handOver t w e m rest ht hw =>
    have hwp : n.phase w = .receiving e := (hrecv e w).mp (by simp [hw])
    have hnd := hrnd e
    rw [hw, List.nodup_cons] at hnd
    constructor <;> grind
  | @buffer t e m ht hw hroom =>
    have hsenders : (n.chan e).senders = [] := by
      by_contra hne
      have := hfull e hne
      omega
    constructor <;> grind
  | @parkSend t e m ht hw hroom =>
    have hfresh : t ∉ (n.chan e).senders.map Prod.fst := by
      rw [hsend e t, ht]; simp
    constructor <;> grind
  | @take t e m rest ht hring hs =>
    have hnone : (n.chan e).receivers = [] := by
      by_contra hne
      simpa [hring] using (hstarved e hne).1
    constructor <;> grind
  | @takeAndWake t s e m sm rest ss ht hring hs =>
    have hnone : (n.chan e).receivers = [] := by
      by_contra hne
      simpa [hring] using (hstarved e hne).1
    have hsp : n.phase s = .sending e := (hsend e s).mp (by simp [hs])
    have hnd := hsnd e
    rw [hs, List.map_cons, List.nodup_cons] at hnd
    constructor <;> grind
  | @parkRecv t e ht hring =>
    have hsenders : (n.chan e).senders = [] := by
      by_contra hne
      have hlen := hfull e hne
      rw [hring, List.length_nil] at hlen
      omega
    have hfresh : t ∉ (n.chan e).receivers := by
      rw [hrecv e t, ht]; simp
    constructor <;> grind
  | resumeRecv ht => exact hq.rephase _ (by simp [ht]) (by simp)
  | resumeSend ht => exact hq.rephase _ (by simp [ht]) (by simp)
  | join ht => exact hq.rephase _ (by simp [ht]) (by simp)
  | leave ht => exact hq.rephase _ (by simp [ht]) (by simp)

/-- Gone is for good. -/
theorem Step.gone {t : ι} (hq : n.Queued cap) (hs : Step cap n n') (ht : n.phase t = .gone) :
    n'.phase t = .gone := by
  have hne : ∀ {u : ι} {p q : Phase ε M}, n.phase u = p → p ≠ .gone →
      Function.update n.phase u q t = .gone := by
    intro u p q hu hp
    rw [Function.update_of_ne, ht]
    rintro rfl
    exact hp (hu.symm.trans ht)
  cases hs with
  | @handOver _ w e _ _ _ hw => exact hne ((hq.receiving e w).mp (by simp [hw])) (by simp)
  | buffer => exact ht
  | parkSend hu => exact hne hu (by simp)
  | take => exact ht
  | @takeAndWake _ s e _ _ _ _ _ _ hs => exact hne ((hq.sending e s).mp (by simp [hs])) (by simp)
  | parkRecv hu => exact hne hu (by simp)
  | resumeRecv hu => exact hne hu (by simp)
  | resumeSend hu => exact hne hu (by simp)
  | join hu => exact hne hu (by simp)
  | leave hu => exact hne hu (by simp)

namespace InOrder

variable {ch : Chan ι M} {asked : ℕ} {sent : List M}

omit [DecidableEq ι] in
/-- A parked receiver is owed the next message to arrive. -/
theorem handOver {w : ι} {rest : List ι} (h : InOrder ch asked sent)
    (hw : ch.receivers = w :: rest) (hring : ch.ring = []) (hs : ch.senders = []) (m : M) :
    InOrder { ch with receivers := rest } asked (sent ++ [m]) ∧
      (sent ++ [m])[asked - ch.receivers.length]? = some m := by
  have hle := h.parked_le
  have hall : sent.length = asked - ch.receivers.length := by
    have hdrop : sent.drop (asked - ch.receivers.length) = [] := by
      rw [h.pending, hring, hs]; rfl
    have := List.drop_eq_nil_iff.mp hdrop
    have := h.served_le
    omega
  rw [hw, List.length_cons] at hle hall
  refine ⟨⟨?_, ?_, ?_⟩, ?_⟩
  · show rest.length ≤ asked
    omega
  · show asked - rest.length ≤ (sent ++ [m]).length
    rw [List.length_append, List.length_singleton]; omega
  · show (sent ++ [m]).drop (asked - rest.length) = ch.ring ++ ch.senders.map Prod.snd
    rw [hring, hs, List.drop_eq_nil_of_le (by rw [List.length_append, List.length_singleton]; omega)]
    rfl
  · rw [hw, List.length_cons, ← hall, List.getElem?_concat_length]

omit [DecidableEq ι] in
theorem buffer (h : InOrder ch asked sent) (hs : ch.senders = []) (m : M) :
    InOrder { ch with ring := ch.ring ++ [m] } asked (sent ++ [m]) where
  parked_le := h.parked_le
  served_le := by rw [List.length_append]; exact Nat.le_add_right_of_le h.served_le
  pending := by
    rw [List.drop_append_of_le_length h.served_le, h.pending, hs]; simp

omit [DecidableEq ι] in
theorem parkSend (h : InOrder ch asked sent) (t : ι) (m : M) :
    InOrder { ch with senders := ch.senders ++ [(t, m)] } asked (sent ++ [m]) where
  parked_le := h.parked_le
  served_le := by rw [List.length_append]; exact Nat.le_add_right_of_le h.served_le
  pending := by
    rw [List.drop_append_of_le_length h.served_le, h.pending]; simp

omit [DecidableEq ι] in
/-- With nobody parked, the next receive is owed the head of the ring. -/
theorem head {m : M} {rest : List M} (h : InOrder ch asked sent) (hw : ch.receivers = [])
    (hring : ch.ring = m :: rest) :
    sent[asked]? = some m ∧ sent.drop (asked + 1) = rest ++ ch.senders.map Prod.snd := by
  have hpend := h.pending
  rw [hw, List.length_nil, Nat.sub_zero, hring, List.cons_append] at hpend
  constructor
  · rw [← List.head?_drop, hpend, List.head?_cons]
  · rw [← List.tail_drop, hpend, List.tail_cons]

omit [DecidableEq ι] in
/-- A receive served from the ring, whatever is deposited behind it. -/
theorem take {m : M} {rest ring : List M} {senders : List (ι × M)} (h : InOrder ch asked sent)
    (hw : ch.receivers = []) (hring : ch.ring = m :: rest)
    (hsame : ring ++ senders.map Prod.snd = rest ++ ch.senders.map Prod.snd) :
    InOrder { ch with ring := ring, senders := senders } (asked + 1) sent := by
  obtain ⟨hget, hdrop⟩ := h.head hw hring
  obtain ⟨hlt, -⟩ := List.getElem?_eq_some_iff.mp hget
  refine ⟨?_, ?_, ?_⟩
  · simp [hw]
  · simpa [hw] using Nat.succ_le_of_lt hlt
  · simpa [hw, hsame] using hdrop

omit [DecidableEq ι] in
theorem parkRecv (h : InOrder ch asked sent) (t : ι) :
    InOrder { ch with receivers := ch.receivers ++ [t] } (asked + 1) sent := by
  have hsub : asked + 1 - (ch.receivers ++ [t]).length = asked - ch.receivers.length := by
    rw [List.length_append, List.length_singleton]; omega
  refine ⟨?_, ?_, ?_⟩
  · have := h.parked_le
    rw [List.length_append, List.length_singleton]; omega
  · rw [hsub]; exact h.served_le
  · rw [hsub]; exact h.pending

end InOrder

theorem Fifo.claim_of_free (hf : n.Fifo) {t : ι} (ht : n.phase t = .free) :
    claim t n.history = none := by
  cases hc : claim t n.history with
  | none => rfl
  | some c =>
    rcases hf.unclaimed t (by simp [hc]) with ⟨e, he⟩ | ⟨m, hm⟩
    · rw [ht] at he; cases he
    · rw [ht] at hm; cases hm

section

variable {t : ι} {e : ε} {m : M}

theorem Fifo.handOver {w : ι} {rest : List ι} (hf : n.Fifo) (hq : n.Queued cap)
    (hw : (n.chan e).receivers = w :: rest) :
    Fifo ⟨Function.update n.chan e { n.chan e with receivers := rest },
      Function.update n.phase w (.handed m), .sent t e m :: n.history⟩ := by
  obtain ⟨hord, howed, hheld, huncl, hhon⟩ := id hf
  have hst := hq.starved e (by simp [hw])
  obtain ⟨hnew, hget⟩ := (hord e).handOver hw hst.1 hst.2 m
  have hle := (hord e).parked_le
  have hw0 := howed e 0 w (by simp [hw])
  have hrest : ∀ j u, rest[j]? = some u →
      claim u n.history = some (e, asks e n.history - rest.length + j) := by
    intro j u hj
    rw [howed e (j + 1) u (by simpa [hw] using hj)]
    rw [hw, List.length_cons] at hle ⊢
    congr 2
    omega
  have hwp : n.phase w = .receiving e := (hq.receiving e w).mp (by simp [hw])
  constructor <;> grind [asks, sentOn, claim, Honest]

theorem Fifo.buffer (hf : n.Fifo) (hq : n.Queued cap) (hroom : (n.chan e).ring.length < cap) :
    Fifo ⟨Function.update n.chan e { n.chan e with ring := (n.chan e).ring ++ [m] }, n.phase,
      .sent t e m :: n.history⟩ := by
  have hsenders : (n.chan e).senders = [] := by
    by_contra hne
    have := hq.full e hne
    omega
  have hnew := (hf.inOrder e).buffer hsenders m
  obtain ⟨hord, howed, hheld, huncl, hhon⟩ := hf
  constructor <;> grind [asks, sentOn, claim, Honest]

theorem Fifo.parkSend (hf : n.Fifo) (ht : n.phase t = .free) :
    Fifo ⟨Function.update n.chan e { n.chan e with senders := (n.chan e).senders ++ [(t, m)] },
      Function.update n.phase t (.sending e), .sent t e m :: n.history⟩ := by
  have hnew := (hf.inOrder e).parkSend t m
  obtain ⟨hord, howed, hheld, huncl, hhon⟩ := hf
  constructor <;> grind [asks, sentOn, claim, Honest]

/-- A receive served from the ring, whatever is deposited behind it, and by whom. -/
theorem Fifo.take {rest ring : List M} {senders : List (ι × M)} {phase : ι → Phase ε M}
    (hf : n.Fifo) (hq : n.Queued cap) (ht : n.phase t = .free) (hring : (n.chan e).ring = m :: rest)
    (hsame : ring ++ senders.map Prod.snd = rest ++ (n.chan e).senders.map Prod.snd)
    (hphase : ∀ u, phase u = n.phase u ∨
      ((∀ c, n.phase u ≠ .receiving c) ∧ (∀ m, n.phase u ≠ .handed m) ∧ phase u = .released)) :
    Fifo ⟨Function.update n.chan e { n.chan e with ring := ring, senders := senders }, phase,
      .got t m :: .asked t e :: n.history⟩ := by
  have hnone : (n.chan e).receivers = [] := by
    by_contra hne
    simpa [hring] using (hq.starved e hne).1
  have hclaim := hf.claim_of_free ht
  obtain ⟨hget, -⟩ := (hf.inOrder e).head hnone hring
  have hnew : InOrder { n.chan e with ring := ring, senders := senders } _ _ :=
    (hf.inOrder e).take hnone hring hsame
  obtain ⟨hord, howed, hheld, huncl, hhon⟩ := hf
  have hhon' : Honest (.got t m :: .asked t e :: n.history) :=
    ⟨⟨e, asks e n.history, by simp [claim], hget⟩, hclaim, hhon⟩
  constructor <;> grind [asks, sentOn, claim, Honest]

theorem Fifo.parkRecv (hf : n.Fifo) (ht : n.phase t = .free) :
    Fifo ⟨Function.update n.chan e { n.chan e with receivers := (n.chan e).receivers ++ [t] },
      Function.update n.phase t (.receiving e), .asked t e :: n.history⟩ := by
  have hnew := (hf.inOrder e).parkRecv t
  have hle := (hf.inOrder e).parked_le
  have hclaim := hf.claim_of_free ht
  -- nobody's claim is forgotten, and nobody but `t` gains one
  have hkeep : ∀ u c, claim u n.history = some c →
      claim u (.asked t e :: n.history) = some c := by
    intro u c hu
    have hne : t ≠ u := by
      rintro rfl
      rw [hclaim] at hu
      cases hu
    simpa [claim, hne] using hu
  constructor
  · intro c
    by_cases hc : c = e
    · subst hc
      simpa [asks, sentOn] using hnew
    · simpa [asks, sentOn, hc, Ne.symm hc] using hf.inOrder c
  · intro c j u hj
    by_cases hc : c = e
    · subst hc
      simp only [Function.update_self, List.getElem?_append, List.length_append,
        List.length_singleton] at hj ⊢
      split at hj
      · rw [hkeep u _ (hf.owed c j u hj), asks, if_pos rfl]
        congr 2
        omega
      · obtain ⟨hj0, rfl⟩ : j - (n.chan c).receivers.length = 0 ∧ t = u := by
          simpa [List.getElem?_singleton] using hj
        simp only [claim, asks, if_true]
        congr 2
        omega
    · simp only [Function.update_of_ne hc] at hj ⊢
      simpa [asks, Ne.symm hc] using hkeep u _ (hf.owed c j u hj)
  · intro u m hu
    by_cases hut : u = t
    · subst hut
      simp at hu
    · obtain ⟨c, k, hc, hk⟩ := hf.held u m (by simpa [hut] using hu)
      exact ⟨c, k, hkeep u _ hc, by simpa [sentOn] using hk⟩
  · intro u hu
    by_cases hut : u = t
    · subst hut
      exact .inl ⟨e, Function.update_self ..⟩
    · simpa [hut] using hf.unclaimed u (by simpa [claim, Ne.symm hut] using hu)
  · exact ⟨hclaim, hf.honest⟩

theorem Fifo.resumeRecv (hf : n.Fifo) (hq : n.Queued cap) (ht : n.phase t = .handed m) :
    Fifo ⟨n.chan, Function.update n.phase t .free, .got t m :: n.history⟩ := by
  have hout : ∀ e, t ∉ (n.chan e).receivers := by
    intro e
    rw [hq.receiving e t, ht]
    simp
  have hne : ∀ (e : ε) (j : ℕ) (u : ι), (n.chan e).receivers[j]? = some u → t ≠ u := by
    intro e j u hj htu
    exact hout e (htu ▸ List.mem_of_getElem? hj)
  obtain ⟨hord, howed, hheld, huncl, hhon⟩ := hf
  constructor <;> grind [asks, sentOn, claim, Honest]

/-- A party between calls may come and go. -/
theorem Fifo.rephase {p : Phase ε M} (hf : n.Fifo) (hold : ∀ e, n.phase t ≠ .receiving e)
    (hold' : ∀ m, n.phase t ≠ .handed m) (hnew : ∀ m, p ≠ .handed m) :
    Fifo { n with phase := Function.update n.phase t p } := by
  obtain ⟨hord, howed, hheld, huncl, hhon⟩ := hf
  constructor <;> grind

end

theorem Fifo.step (hf : n.Fifo) (hq : n.Queued cap) (hs : Step cap n n') :
    n'.Fifo := by
  cases hs with
  | handOver ht hw => exact hf.handOver hq hw
  | buffer ht hw hroom => exact hf.buffer hq hroom
  | parkSend ht hw hfull => exact hf.parkSend ht
  | take ht hring hs => exact hf.take hq ht hring rfl fun u => .inl rfl
  | @takeAndWake t s e m sm rest ss ht hring hs =>
    have hsp : n.phase s = .sending e := (hq.sending e s).mp (by simp [hs])
    refine hf.take hq ht hring (by simp [hs]) fun u => ?_
    by_cases hu : u = s
    · subst hu
      exact .inr ⟨by simp [hsp], by simp [hsp], Function.update_self ..⟩
    · exact .inl (Function.update_of_ne hu ..)
  | parkRecv ht hring => exact hf.parkRecv ht
  | resumeRecv ht => exact hf.resumeRecv hq ht
  | resumeSend ht => exact hf.rephase (by simp [ht]) (by simp [ht]) (by simp)
  | join ht => exact hf.rephase (by simp [ht]) (by simp [ht]) (by simp)
  | leave ht => exact hf.rephase (by simp [ht]) (by simp [ht]) (by simp)

/-- Nobody has joined and nothing has happened. -/
def empty : Net ι ε M := ⟨fun _ => ⟨[], [], []⟩, fun _ => .absent, []⟩

omit [DecidableEq ι] [DecidableEq ε] in
theorem empty_queued : (empty : Net ι ε M).Queued cap := by
  constructor <;> simp [empty]

theorem empty_fifo : (empty : Net ι ε M).Fifo := by
  constructor
  · intro e
    constructor <;> simp [empty, sentOn, asks]
  all_goals simp [empty, claim, Honest]

end Net

end StarOs.Library
