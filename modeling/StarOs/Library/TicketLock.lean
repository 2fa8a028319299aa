import Mathlib.Algebra.Group.Nat.Defs
import Mathlib.Data.Fintype.Card
import Mathlib.Logic.Function.Basic
import StarOs.Library.Run

/-! A ticket lock over any parties: two counters of `w` bits that wrap, and the ticket on which
each party spins. The parties stand in a line that the counters number from its front, so that
the lock is given in the order in which the tickets were taken. -/

namespace StarOs.Library

variable {π : Type} {w : ℕ}

@[ext] structure TicketLock (π : Type) (w : ℕ) where
  next : BitVec w
  serving : BitVec w
  spins : π → Option (BitVec w)
  holds : π → Bool

namespace TicketLock

inductive Act (π : Type) where
  | take (p : π)
  | enter (p : π)
  | drop (p : π)

section operations

variable [DecidableEq π] (L : TicketLock π w) (p : π)

/-- `p` takes the next ticket and spins on it. -/
def took : TicketLock π w :=
  { L with next := L.next + 1, spins := Function.update L.spins p (some L.next) }

/-- `p` stops spinning and holds the lock. -/
def entered : TicketLock π w :=
  { L with spins := Function.update L.spins p none, holds := Function.update L.holds p true }

/-- `p` lets the lock go and the next ticket is served. -/
def dropped : TicketLock π w :=
  { L with serving := L.serving + 1, holds := Function.update L.holds p false }

variable {q : π}

@[simp] theorem took_next : (L.took p).next = L.next + 1 := rfl
@[simp] theorem took_serving : (L.took p).serving = L.serving := rfl
@[simp] theorem took_holds : (L.took p).holds = L.holds := rfl
@[simp] theorem took_spins_self : (L.took p).spins p = some L.next := Function.update_self ..
theorem took_spins_of_ne (h : q ≠ p) : (L.took p).spins q = L.spins q := Function.update_of_ne h ..

@[simp] theorem entered_next : (L.entered p).next = L.next := rfl
@[simp] theorem entered_serving : (L.entered p).serving = L.serving := rfl
@[simp] theorem entered_holds_self : (L.entered p).holds p = true := Function.update_self ..
theorem entered_holds_of_ne (h : q ≠ p) : (L.entered p).holds q = L.holds q :=
  Function.update_of_ne h ..
@[simp] theorem entered_spins_self : (L.entered p).spins p = none := Function.update_self ..
theorem entered_spins_of_ne (h : q ≠ p) : (L.entered p).spins q = L.spins q :=
  Function.update_of_ne h ..

@[simp] theorem dropped_next : (L.dropped p).next = L.next := rfl
@[simp] theorem dropped_serving : (L.dropped p).serving = L.serving + 1 := rfl
@[simp] theorem dropped_spins : (L.dropped p).spins = L.spins := rfl
@[simp] theorem dropped_holds_self : (L.dropped p).holds p = false := Function.update_self ..
theorem dropped_holds_of_ne (h : q ≠ p) : (L.dropped p).holds q = L.holds q :=
  Function.update_of_ne h ..

end operations

/-- A party that holds the lock may take a ticket of it again; it is never served. -/
inductive Step [DecidableEq π] (L : TicketLock π w) : Act π → TicketLock π w → Prop where
  | take {p : π} (h : L.spins p = none) : Step L (.take p) (L.took p)
  | enter {p : π} (h : L.spins p = some L.serving) : Step L (.enter p) (L.entered p)
  | drop {p : π} (h : L.holds p = true) : Step L (.drop p) (L.dropped p)

/-- The lock is free and nobody waits. -/
def Idle (L : TicketLock π w) : Prop :=
  L.next = L.serving ∧ (∀ p, L.spins p = none) ∧ ∀ p, L.holds p = false

/-- How many tickets come before `t`. -/
def rank (L : TicketLock π w) (t : BitVec w) : ℕ := (t - L.serving).toNat

/-- The one that holds the lock, if any, and behind it the ones that wait: the tickets number
them from the one being served. -/
structure Lined (L : TicketLock π w) (holder : Option π) (queue : List π) : Prop where
  held : ∀ p, L.holds p = true ↔ holder = some p
  waits : ∀ p t, L.spins p = some t ↔
    ∃ i, queue[i]? = some p ∧ t = L.serving + BitVec.ofNat w (holder.toList.length + i)
  nodup : queue.Nodup
  issued : L.next = L.serving + BitVec.ofNat w (holder.toList.length + queue.length)

theorem Idle.lined {L : TicketLock π w} (h : L.Idle) : L.Lined none [] where
  held p := by simp [h.2.2 p]
  waits p t := by simp [h.2.1 p]
  nodup := List.nodup_nil
  issued := by simp [h.1]

theorem ofNat_add_one (x : BitVec w) (n : ℕ) :
    x + BitVec.ofNat w (n + 1) = x + 1 + BitVec.ofNat w n := by
  rw [BitVec.ofNat_add, BitVec.add_comm (BitVec.ofNat w n), ← BitVec.add_assoc]
  rfl

variable {L L' : TicketLock π w} {holder : Option π} {queue : List π} {p q : π} {t u : BitVec w}

namespace Lined

theorem mem_line (h : L.Lined holder queue) : p ∈ queue ↔ ∃ t, L.spins p = some t := by
  constructor
  · intro hp
    obtain ⟨i, hi⟩ := List.mem_iff_getElem?.mp hp
    exact ⟨_, (h.waits p _).mpr ⟨i, hi, rfl⟩⟩
  · rintro ⟨t, ht⟩
    obtain ⟨i, hi, -⟩ := (h.waits p t).mp ht
    exact List.mem_of_getElem? hi

theorem exclusive (h : L.Lined holder queue) (hp : L.holds p = true) (hq : L.holds q = true) :
    p = q := by
  have hp := (h.held p).mp hp
  have hq := (h.held q).mp hq
  exact Option.some.inj (hp.symm.trans hq)

/-- No ticket is lost: where one waits, the lock is held or someone is served. -/
theorem served (h : L.Lined holder queue) (hp : L.spins p = some t) :
    (∃ q, L.holds q = true) ∨ ∃ q, L.spins q = some L.serving := by
  cases holder with
  | some q => exact .inl ⟨q, (h.held q).mpr rfl⟩
  | none =>
    cases queue with
    | nil => simpa using h.mem_line.mpr ⟨t, hp⟩
    | cons q rest => exact .inr ⟨q, (h.waits q _).mpr ⟨0, by simp⟩⟩

variable [Fintype π]

theorem rank_eq (h : L.Lined holder queue) (hw : Fintype.card π < 2 ^ w) {i : ℕ}
    (hi : queue[i]? = some p) :
    L.rank (L.serving + BitVec.ofNat w (holder.toList.length + i)) =
      holder.toList.length + i := by
  have hlen := h.nodup.length_le_card
  obtain ⟨hlt, -⟩ := List.getElem?_eq_some_iff.mp hi
  have hone : holder.toList.length ≤ 1 := by cases holder <;> simp
  rw [rank, BitVec.add_comm, BitVec.add_sub_cancel, BitVec.toNat_ofNat, Nat.mod_eq_of_lt]
  omega

/-- Where a waiting party stands. -/
theorem rank_of_spins (h : L.Lined holder queue) (hw : Fintype.card π < 2 ^ w)
    (hp : L.spins p = some t) :
    ∃ i, queue[i]? = some p ∧ L.rank t = holder.toList.length + i := by
  obtain ⟨i, hi, rfl⟩ := (h.waits p t).mp hp
  exact ⟨i, hi, h.rank_eq hw hi⟩

theorem rank_le (h : L.Lined holder queue) (hw : Fintype.card π < 2 ^ w)
    (hp : L.spins p = some t) : L.rank t ≤ Fintype.card π := by
  obtain ⟨i, hi, hrank⟩ := h.rank_of_spins hw hp
  have hlen := h.nodup.length_le_card
  obtain ⟨hlt, -⟩ := List.getElem?_eq_some_iff.mp hi
  have hone : holder.toList.length ≤ 1 := by cases holder <;> simp
  omega

/-- The one that is served stands at the front, and the lock is free. -/
theorem front (h : L.Lined holder queue) (hw : Fintype.card π < 2 ^ w)
    (hp : L.spins p = some L.serving) : holder = none ∧ ∃ rest, queue = p :: rest := by
  obtain ⟨i, hi, hrank⟩ := h.rank_of_spins hw hp
  have hzero : L.rank L.serving = 0 := by simp [rank]
  obtain rfl : i = 0 := by omega
  cases holder with
  | some q => simp [hzero] at hrank
  | none =>
    cases queue with
    | nil => simp at hi
    | cons a rest => exact ⟨rfl, rest, by simpa using hi⟩

theorem free_of_served (h : L.Lined holder queue) (hw : Fintype.card π < 2 ^ w)
    (hp : L.spins p = some L.serving) (q : π) : L.holds q = false := by
  obtain ⟨rfl, -⟩ := h.front hw hp
  rw [Bool.eq_false_iff, ne_eq, h.held]
  simp

end Lined

section steps

variable [DecidableEq π]

theorem Lined.took (h : L.Lined holder queue) (hp : L.spins p = none) :
    (L.took p).Lined holder (queue ++ [p]) := by
  have hnot : p ∉ queue := fun hmem => by simpa [hp] using h.mem_line.mp hmem
  refine ⟨h.held, fun q t => ?_, ?_, ?_⟩
  · by_cases hq : q = p
    · subst hq
      rw [took_spins_self, took_serving, Option.some.injEq]
      constructor
      · rintro rfl
        exact ⟨queue.length, by simp, h.issued⟩
      · rintro ⟨i, hi, rfl⟩
        obtain hlt | hlt | hlt := Nat.lt_trichotomy i queue.length
        · rw [List.getElem?_append_left hlt] at hi
          exact absurd (List.mem_of_getElem? hi) hnot
        · subst hlt
          exact h.issued
        · rw [List.getElem?_eq_none (by simp; omega)] at hi
          cases hi
    · rw [took_spins_of_ne L p hq, took_serving, h.waits]
      refine exists_congr fun i => and_congr_left fun _ => ?_
      obtain hlt | hlt | hlt := Nat.lt_trichotomy i queue.length
      · rw [List.getElem?_append_left hlt]
      · subst hlt
        simpa using fun heq => hq (Eq.symm heq)
      · rw [List.getElem?_eq_none (by omega), List.getElem?_eq_none (by simp; omega)]
  · refine List.nodup_append.mpr ⟨h.nodup, List.nodup_singleton p, fun a ha b hb => ?_⟩
    rintro rfl
    obtain rfl : a = p := by simpa using hb
    exact hnot ha
  · rw [took_next, took_serving, h.issued, List.length_append, List.length_singleton,
      ← Nat.add_assoc, ofNat_add_one, BitVec.add_assoc, BitVec.add_comm _ 1,
      ← BitVec.add_assoc]

theorem Lined.entered {rest : List π} (h : L.Lined none (p :: rest)) :
    (L.entered p).Lined (some p) rest := by
  have hnot : p ∉ rest := (List.nodup_cons.mp h.nodup).1
  refine ⟨fun q => ?_, fun q t => ?_, (List.nodup_cons.mp h.nodup).2, ?_⟩
  · by_cases hq : q = p
    · simp [hq]
    · rw [entered_holds_of_ne L p hq, h.held]
      simpa using fun heq => hq (Eq.symm heq)
  · by_cases hq : q = p
    · subst hq
      rw [entered_spins_self]
      simp only [reduceCtorEq, false_iff, not_exists, not_and]
      intro i hi
      exact absurd (List.mem_of_getElem? hi) hnot
    · rw [entered_spins_of_ne L p hq, h.waits]
      constructor
      · rintro ⟨i, hi, ht⟩
        cases i with
        | zero => exact absurd (by simpa using Eq.symm hi) hq
        | succ i => exact ⟨i, by simpa using hi, by simpa [Nat.add_comm] using ht⟩
      · rintro ⟨i, hi, ht⟩
        exact ⟨i + 1, by simpa using hi, by simpa [Nat.add_comm] using ht⟩
  · simpa [Nat.add_comm] using h.issued

theorem Lined.dropped (h : L.Lined (some p) queue) : (L.dropped p).Lined none queue := by
  refine ⟨fun q => ?_, fun q t => ?_, h.nodup, ?_⟩
  · by_cases hq : q = p
    · simp [hq]
    · rw [dropped_holds_of_ne L p hq, h.held]
      simpa using fun heq => hq (Eq.symm heq)
  · rw [dropped_spins, h.waits]
    refine exists_congr fun i => and_congr_right fun _ => ?_
    rw [Option.toList_some, List.length_singleton, Nat.add_comm 1 i, ofNat_add_one]
    simp
  · rw [dropped_next, h.issued, Option.toList_some, List.length_singleton, Nat.add_comm 1,
      ofNat_add_one]
    simp

variable [Fintype π]

/-- A step of the lock is a step of its line: a ticket joins at the end, only the front
enters, and only the holder leaves. -/
theorem Lined.step (h : L.Lined holder queue) (hw : Fintype.card π < 2 ^ w) {a : Act π}
    (hs : Step L a L') : ∃ holder queue, L'.Lined holder queue := by
  cases hs with
  | take hp => exact ⟨holder, _, h.took hp⟩
  | enter hp =>
    obtain ⟨rfl, rest, rfl⟩ := h.front hw hp
    exact ⟨_, rest, h.entered⟩
  | drop hp =>
    obtain rfl := (h.held _).mp hp
    exact ⟨none, queue, h.dropped⟩

/-- Dropping the lock moves everyone that waits one forward. -/
theorem Lined.rank_dropped (h : L.Lined holder queue) (hw : Fintype.card π < 2 ^ w)
    (hq : L.holds q = true) (hp : L.spins p = some t) :
    (L.dropped q).rank t + 1 = L.rank t := by
  obtain rfl := (h.held q).mp hq
  obtain ⟨i, hi, hnew⟩ := h.dropped.rank_of_spins hw (p := p) (t := t) hp
  obtain ⟨j, hj, hold⟩ := h.rank_of_spins hw hp
  obtain ⟨hlt, -⟩ := List.getElem?_eq_some_iff.mp hi
  obtain rfl : i = j := (List.getElem?_inj hlt h.nodup).mp (hi.trans hj.symm)
  simp only [Option.toList_none, List.length_nil, Option.toList_some,
    List.length_singleton] at hnew hold
  omega

/-- First come, first served, one step. -/
theorem Lined.before_step (h : L.Lined holder queue) (hw : Fintype.card π < 2 ^ w) {a : Act π}
    (hs : Step L a L') (ha : a ≠ .enter p) (hp : L.spins p = some t) (hq : L.spins q = some u)
    (hlt : L.rank t < L.rank u) :
    L'.spins p = some t ∧ L'.spins q = some u ∧ L'.rank t < L'.rank u := by
  cases hs with
  | @take r hr =>
    have hpr : p ≠ r := fun heq => by simp [← heq, hp] at hr
    have hqr : q ≠ r := fun heq => by simp [← heq, hq] at hr
    rw [took_spins_of_ne L r hpr, took_spins_of_ne L r hqr]
    exact ⟨hp, hq, hlt⟩
  | @enter r hr =>
    have hpr : p ≠ r := fun heq => ha (by rw [heq])
    have hqr : q ≠ r := fun heq => by
      obtain rfl : L.serving = u := by simpa [heq, hr] using hq
      simp [rank] at hlt
    rw [entered_spins_of_ne L r hpr, entered_spins_of_ne L r hqr]
    exact ⟨hp, hq, hlt⟩
  | @drop r hr =>
    have hrankp := h.rank_dropped hw hr hp
    have hrankq := h.rank_dropped hw hr hq
    exact ⟨hp, hq, by omega⟩

end steps

end TicketLock

end StarOs.Library
