import StarOs.Kernel.Obj
import Mathlib.Data.List.Nodup
import Mathlib.Data.List.Induction
import Mathlib.Order.Basic
import Mathlib.Algebra.Order.Group.Nat

/-! Runs of the object table. A history records, beside the table itself, how
often each slot has been revoked, every reference a create returned and the slot
and revocation count it was minted at. The pairs (slot, count) are never
repeated; references are their truncations to 32 bits, so a reference comes back
exactly when one of the two halves passes `2 ^ 32`. -/

namespace StarOs.Kernel.Obj

/-- The calls a run is made of. -/
inductive Op where
  | create (object : Object) (grow : Bool)
  | get (r : ObjectRef)
  | revoke (r : ObjectRef)

/-- The table with what has happened to it. -/
structure History where
  slots : Slots
  revoked : ℕ → ℕ
  created : List ObjectRef
  landed : List (ℕ × ℕ)

namespace History

/-- Before the first call. -/
def start : History := ⟨[], fun _ => 0, [], []⟩

def step (h : History) : Op → History
  | .create object grow =>
    match create grow object h.slots with
    | (none, slots) => { h with slots }
    | (some r, slots) =>
      { h with
        slots
        created := h.created ++ [r]
        landed := h.landed ++ [(freeSlot h.slots, h.revoked (freeSlot h.slots))] }
  | .get _ => h
  | .revoke r =>
    match Obj.revoke r h.slots with
    | (false, slots) => { h with slots }
    | (true, slots) =>
      { h with
        slots
        revoked := Function.update h.revoked r.index.toNat (h.revoked r.index.toNat + 1) }

end History

/-- The history of a run from the empty table. -/
def history (ops : List Op) : History := ops.foldl History.step .start

theorem history_append (ops ops' : List Op) :
    history (ops ++ ops') = ops'.foldl History.step (history ops) := List.foldl_append

theorem history_snoc (ops : List Op) (op : Op) :
    history (ops ++ [op]) = (history ops).step op := by simp [history_append]

/-- Once a reference has been revoked, it neither resolves nor can be revoked
again in any later state of the run. -/
def RevocationFinal (ops : List Op) : Prop :=
  ∀ pre r mid, pre ++ .revoke r :: mid <+: ops → (revoke r (history pre).slots).1 = true →
    get (history (pre ++ .revoke r :: mid)).slots r = none ∧
      (revoke r (history (pre ++ .revoke r :: mid)).slots).1 = false

/-- No two creates of the run return the same reference. -/
def UniqueRefs (ops : List Op) : Prop := (history ops).created.Nodup

/-- Every create of the run lands below slot `2 ^ 32`, in a slot revoked fewer
than `2 ^ 32` times. -/
def FreshLandings (ops : List Op) : Prop :=
  ∀ p ∈ (history ops).landed, p.1 < 2 ^ 32 ∧ p.2 < 2 ^ 32

/-- The reference minted in slot `p.1` after `p.2` revocations of it. -/
def refOf (p : ℕ × ℕ) : ObjectRef := ⟨UInt32.ofNat p.1, UInt32.ofNat p.2⟩

theorem refOf_injOn {p q : ℕ × ℕ} (hp : p.1 < 2 ^ 32 ∧ p.2 < 2 ^ 32)
    (hq : q.1 < 2 ^ 32 ∧ q.2 < 2 ^ 32) (h : refOf p = refOf q) : p = q := by
  simp only [refOf, ObjectRef.mk.injEq] at h
  have h1 := congrArg UInt32.toNat h.1
  have h2 := congrArg UInt32.toNat h.2
  rw [UInt32.toNat_ofNat_of_lt' hp.1, UInt32.toNat_ofNat_of_lt' hq.1] at h1
  rw [UInt32.toNat_ofNat_of_lt' hp.2, UInt32.toNat_ofNat_of_lt' hq.2] at h2
  exact Prod.ext h1 h2

theorem ofNat_sub_wrap {n : ℕ} (h : 2 ^ 32 ≤ n) : UInt32.ofNat (n - 2 ^ 32) = UInt32.ofNat n := by
  apply UInt32.toNat_inj.mp
  simp only [UInt32.toNat_ofNat']
  omega

/-- What every history satisfies: the generation counts revocations, and the
landings are exactly the counts every existing slot has gone through. -/
structure Consistent (h : History) : Prop where
  generation : ∀ i, generationAt h.slots i = UInt32.ofNat (h.revoked i)
  created : h.created = h.landed.map refOf
  nodup : h.landed.Nodup
  landed : ∀ i k, (i, k) ∈ h.landed ↔
    i < h.slots.length ∧ (k < h.revoked i ∨ k = h.revoked i ∧ Live h.slots i)
  unused : ∀ i, h.slots.length ≤ i → h.revoked i = 0
  used : ∀ i < h.slots.length, h.revoked i = 0 → Live h.slots i

namespace Consistent

theorem start : Consistent History.start where
  generation i := by simp [History.start, generationAt]
  created := rfl
  nodup := List.nodup_nil
  landed i k := by simp [History.start]
  unused i _ := rfl
  used i hi := by simp [History.start] at hi

theorem not_live_freeSlot (slots : Slots) : ¬ Live slots (freeSlot slots) := by
  rintro ⟨slot, hs, ho⟩
  rw [freeSlot_object hs] at ho
  simp at ho

theorem create {h : History} (c : Consistent h) (object : Object) (grow : Bool) :
    Consistent (h.step (.create object grow)) := by
  rcases create_cases grow object h.slots with e | ⟨slots', e, hself, hother, hlen⟩
  · simpa [History.step, e] using c
  · have hi := freeSlot_le h.slots
    have hfree := not_live_freeSlot h.slots
    simp only [History.step, e]
    generalize freeSlot h.slots = i at *
    have hlive : ∀ j, Live slots' j ↔ j = i ∨ Live h.slots j := by
      intro j
      by_cases hj : j = i
      · subst hj; simp [Live, hself]
      · simp [Live, hother j hj, hj]
    have hlt : ∀ j, j < slots'.length ↔ j < h.slots.length ∨ j = i := by intro j; omega
    constructor
    · intro j
      by_cases hj : j = i
      · subst hj; simpa [generationAt, hself] using c.generation j
      · simpa [generationAt, hother j hj] using c.generation j
    · simp only [List.map_append, List.map_cons, List.map_nil, c.created, refOf]
      rw [← c.generation i]
    · refine List.nodup_append.mpr ⟨c.nodup, by simp, ?_⟩
      rintro ⟨j, k⟩ hjk _ hm rfl
      rw [List.mem_singleton, Prod.mk.injEq] at hm
      obtain ⟨rfl, rfl⟩ := hm
      rcases (c.landed _ _).mp hjk with ⟨-, hk | ⟨-, hl⟩⟩
      · exact absurd hk (Nat.lt_irrefl _)
      · exact hfree hl
    · intro j k
      simp only [List.mem_append, List.mem_singleton, Prod.mk.injEq, c.landed, hlt, hlive]
      by_cases hj : j = i
      · subst hj
        have hu := c.unused j
        constructor
        · rintro (⟨-, hk | ⟨-, hl⟩⟩ | ⟨-, rfl⟩)
          · exact ⟨.inr rfl, .inl hk⟩
          · exact absurd hl hfree
          · exact ⟨.inr rfl, .inr ⟨rfl, .inl rfl⟩⟩
        · rintro ⟨-, hk | ⟨rfl, -⟩⟩
          · exact .inl ⟨by by_contra hn; have := hu (by omega); omega, .inl hk⟩
          · exact .inr ⟨rfl, rfl⟩
      · simp [hj]
    · intro j hj
      have hj : slots'.length ≤ j := hj
      exact c.unused j (by omega)
    · intro j hj h0
      rcases (hlt j).mp hj with hj | rfl
      · exact (hlive j).mpr (.inr (c.used j hj h0))
      · exact (hlive j).mpr (.inl rfl)

theorem revoke {h : History} (c : Consistent h) (r : ObjectRef) :
    Consistent (h.step (.revoke r)) := by
  rcases revoke_cases r h.slots with ⟨e, -⟩ | ⟨slot, hs, hg, ho, e⟩
  · simpa [History.step, e] using c
  · obtain ⟨hi, -⟩ := List.getElem?_eq_some_iff.mp hs
    simp only [History.step, e]
    generalize r.index.toNat = i at *
    have hlive : ∀ j, Live (h.slots.set i ⟨r.generation + 1, none⟩) j ↔ j ≠ i ∧ Live h.slots j := by
      intro j
      by_cases hj : j = i
      · subst hj; simp [Live, List.getElem?_set_self hi]
      · simp [Live, List.getElem?_set_ne (Ne.symm hj), hj]
    have hwas : Live h.slots i := ⟨slot, hs, ho⟩
    have hgen := c.generation i
    constructor
    · intro j
      by_cases hj : j = i
      · subst hj
        simp only [generationAt, List.getElem?_set_self hi, Option.map_some, Option.getD_some,
          Function.update_self]
        rw [generationAt, hs, Option.map_some, Option.getD_some, hg] at hgen
        rw [hgen, UInt32.ofNat_add]
        rfl
      · simpa [generationAt, List.getElem?_set_ne (Ne.symm hj), hj] using c.generation j
    · exact c.created
    · exact c.nodup
    · intro j k
      simp only [List.length_set, hlive, c.landed]
      by_cases hj : j = i
      · subst hj
        simp only [Function.update_self, ne_eq, not_true_eq_false, false_and, and_false, or_false]
        constructor
        · rintro ⟨hlt, hk | ⟨rfl, -⟩⟩ <;> exact ⟨hlt, by omega⟩
        · rintro ⟨hlt, hk⟩
          rcases Nat.lt_succ_iff_lt_or_eq.mp hk with hk | rfl
          · exact ⟨hlt, .inl hk⟩
          · exact ⟨hlt, .inr ⟨rfl, hwas⟩⟩
      · simp [hj]
    · intro j hj
      simp only [List.length_set] at hj ⊢
      rw [Function.update_of_ne (by omega)]
      exact c.unused j hj
    · intro j hj h0
      simp only [List.length_set] at hj h0
      by_cases hji : j = i
      · subst hji; simp at h0
      · rw [Function.update_of_ne hji] at h0
        exact (hlive j).mpr ⟨hji, c.used j hj h0⟩

theorem step {h : History} (c : Consistent h) : ∀ op, Consistent (h.step op)
  | .create object grow => c.create object grow
  | .get _ => c
  | .revoke r => c.revoke r

theorem run (ops : List Op) : Consistent (history ops) := by
  induction ops using List.reverseRecOn with
  | nil => exact start
  | append_singleton ops op ih => rw [history_snoc]; exact ih.step op

/-- The references returned are distinct exactly when both halves stay in range. -/
theorem created_nodup_iff {h : History} (c : Consistent h) :
    h.created.Nodup ↔ ∀ p ∈ h.landed, p.1 < 2 ^ 32 ∧ p.2 < 2 ^ 32 := by
  rw [c.created]
  constructor
  · intro hn
    have hinj := List.inj_on_of_nodup_map hn
    rintro ⟨i, k⟩ hp
    obtain ⟨hi, hk⟩ := (c.landed i k).mp hp
    have hzero : ∀ j < h.slots.length, (j, 0) ∈ h.landed := by
      intro j hj
      refine (c.landed j 0).mpr ⟨hj, ?_⟩
      rcases Nat.eq_zero_or_pos (h.revoked j) with h0 | h0
      · exact .inr ⟨h0.symm, c.used j hj h0⟩
      · exact .inl h0
    by_contra hbig
    rcases Nat.lt_or_ge i (2 ^ 32) with hi32 | hi32
    · have hk32 : 2 ^ 32 ≤ k := by
        by_contra hlt
        exact hbig ⟨hi32, by omega⟩
      have hm : (i, k - 2 ^ 32) ∈ h.landed := (c.landed _ _).mpr ⟨hi, .inl (by omega)⟩
      have := hinj hm hp (by rw [refOf, refOf, ofNat_sub_wrap hk32])
      rw [Prod.mk.injEq] at this
      omega
    · have := hinj (hzero (i - 2 ^ 32) (by omega)) (hzero i hi)
        (by rw [refOf, refOf, ofNat_sub_wrap hi32])
      rw [Prod.mk.injEq] at this
      omega
  · intro hb
    exact List.Nodup.map_on (fun p hp q hq e => refOf_injOn (hb p hp) (hb q hq) e) c.nodup

end Consistent

theorem revoked_step_le (h : History) (op : Op) (i : ℕ) : h.revoked i ≤ (h.step op).revoked i := by
  cases op with
  | create object grow => simp only [History.step]; split <;> exact le_rfl
  | get r => exact le_rfl
  | revoke r =>
    simp only [History.step]
    split
    · exact le_rfl
    · by_cases hi : i = r.index.toNat
      · subst hi; simp
      · simp [hi]

theorem revoked_foldl_le (ops : List Op) (h : History) (i : ℕ) :
    h.revoked i ≤ (ops.foldl History.step h).revoked i := by
  induction ops generalizing h with
  | nil => exact le_rfl
  | cons op ops ih => exact (revoked_step_le h op i).trans (ih _)

/-- A later landing is still a landing. -/
theorem landed_mono {ops ops' : List Op} (h : ops <+: ops') :
    ∀ p ∈ (history ops).landed, p ∈ (history ops').landed := by
  obtain ⟨rest, rfl⟩ := h
  rw [history_append]
  generalize history ops = g
  induction rest generalizing g with
  | nil => exact fun p hp => hp
  | cons op rest ih =>
    intro p hp
    refine ih (g.step op) p ?_
    cases op with
    | create object grow =>
      simp only [History.step]
      split
      · exact hp
      · exact List.mem_append_left _ hp
    | get r => exact hp
    | revoke r => simp only [History.step]; split <;> exact hp

/-- A reference that has been revoked resolves again only in a slot whose
revocation count has come round. -/
theorem get_after_revoke {pre mid : List Op} {r : ObjectRef}
    (hfresh : FreshLandings (pre ++ .revoke r :: mid))
    (hr : (revoke r (history pre).slots).1 = true) :
    get (history (pre ++ .revoke r :: mid)).slots r = none := by
  set i := r.index.toNat
  have c := Consistent.run pre
  have c' := Consistent.run (pre ++ .revoke r :: mid)
  obtain ⟨hlive, hgen⟩ := (get_isSome_iff _ _).mp ((revoke_fst _ _).symm.trans hr)
  -- the revoked slot was minted at the count it had, which the revoke passes
  have hcount : (history pre).revoked i < (history (pre ++ .revoke r :: mid)).revoked i := by
    rw [history_append, List.foldl_cons]
    refine lt_of_lt_of_le ?_ (revoked_foldl_le mid _ i)
    rcases revoke_cases r (history pre).slots with ⟨e, -⟩ | ⟨slot, -, -, -, e⟩
    · simp [e] at hr
    · simp only [History.step, e]
      simp [i]
  have hold : (i, (history pre).revoked i) ∈ (history (pre ++ .revoke r :: mid)).landed := by
    refine landed_mono (List.prefix_append _ _) _ ((c.landed _ _).mpr ⟨?_, .inr ⟨rfl, hlive⟩⟩)
    obtain ⟨slot, hs, -⟩ := hlive
    exact (List.getElem?_eq_some_iff.mp hs).1
  by_contra hget
  obtain ⟨hlive', hgen'⟩ := (get_isSome_iff _ _).mp (Option.isSome_iff_ne_none.mpr hget)
  have hnew : (i, (history (pre ++ .revoke r :: mid)).revoked i) ∈
      (history (pre ++ .revoke r :: mid)).landed := by
    refine (c'.landed _ _).mpr ⟨?_, .inr ⟨rfl, hlive'⟩⟩
    obtain ⟨slot, hs, -⟩ := hlive'
    exact (List.getElem?_eq_some_iff.mp hs).1
  have heq := refOf_injOn (hfresh _ hold) (hfresh _ hnew) (by
    simp only [refOf, ObjectRef.mk.injEq, true_and]
    rw [← c.generation, ← c'.generation]
    exact hgen.trans hgen'.symm)
  rw [Prod.mk.injEq] at heq
  omega

/-- Revocation is final and references are unique in exactly the runs whose
creates all land below slot `2 ^ 32` in slots revoked fewer than `2 ^ 32` times. -/
theorem revocation_final_iff (ops : List Op) :
    RevocationFinal ops ∧ UniqueRefs ops ↔ FreshLandings ops := by
  constructor
  · rintro ⟨-, hu⟩
    exact (Consistent.run ops).created_nodup_iff.mp hu
  · intro hf
    refine ⟨?_, (Consistent.run ops).created_nodup_iff.mpr hf⟩
    intro pre r mid hp hr
    have hget := get_after_revoke (fun p hm => hf p (landed_mono hp p hm)) hr
    exact ⟨hget, by rw [revoke_fst, hget]; rfl⟩

/-! ### A run that wraps -/

/-- Create an object in slot zero and revoke it, `n` times over. -/
def cycles (n : ℕ) : List Op :=
  (List.range n).flatMap fun k => [.create (.endpoint 0) true, .revoke ⟨0, UInt32.ofNat k⟩]

theorem cycles_succ (n : ℕ) : cycles (n + 1) =
    cycles n ++ [.create (.endpoint 0) true] ++ [.revoke ⟨0, UInt32.ofNat n⟩] := by
  simp [cycles, List.range_succ]

theorem create_cycles (n : ℕ) :
    (history (cycles n ++ [.create (.endpoint 0) true])).slots =
      [⟨UInt32.ofNat n, some (.endpoint 0)⟩] ∧
    (history (cycles (n + 1))).slots = [⟨UInt32.ofNat (n + 1), none⟩] := by
  have hrevoke : ∀ m, (history (cycles m ++ [.create (.endpoint 0) true])).slots =
      [⟨UInt32.ofNat m, some (.endpoint 0)⟩] →
      (history (cycles (m + 1))).slots = [⟨UInt32.ofNat (m + 1), none⟩] := by
    intro m hm
    rw [cycles_succ, history_snoc]
    simp [History.step, revoke, hm]
  have hcreate : (history (cycles n ++ [.create (.endpoint 0) true])).slots =
      [⟨UInt32.ofNat n, some (.endpoint 0)⟩] := by
    induction n with
    | zero => rfl
    | succ n ih =>
      rw [history_snoc]
      simp [History.step, create, endpointExists, numEndpoints, freeSlot, hrevoke n ih]
  exact ⟨hcreate, hrevoke n hcreate⟩

/-- The run that revokes slot zero `2 ^ 32` times and creates there once more. -/
def wrapRun : List Op := cycles (2 ^ 32) ++ [.create (.endpoint 0) true]

theorem cycles_mono {m n : ℕ} (h : m ≤ n) : cycles m <+: cycles n := by
  induction n, h using Nat.le_induction with
  | base => exact List.prefix_rfl
  | succ n _ ih => exact ih.trans (by rw [cycles_succ, List.append_assoc]; exact List.prefix_append _ _)

/-- In the wrapped run the first reference, revoked at once, resolves again. -/
theorem wrapRun_resurrects : ¬ (RevocationFinal wrapRun ∧ UniqueRefs wrapRun) := by
  rintro ⟨hf, -⟩
  obtain ⟨rest, hrest⟩ : cycles 1 <+: cycles (2 ^ 32) := cycles_mono (Nat.one_le_two_pow)
  have hrun : [.create (.endpoint 0) true] ++ .revoke ⟨0, 0⟩ ::
      (rest ++ [.create (.endpoint 0) true]) = wrapRun := by
    rw [wrapRun, ← hrest]
    rfl
  have hfinal := (hf [.create (.endpoint 0) true] ⟨0, 0⟩ (rest ++ [.create (.endpoint 0) true])
    (hrun ▸ List.prefix_rfl) (by decide)).1
  rw [hrun, wrapRun, (create_cycles (2 ^ 32)).1] at hfinal
  simp [get] at hfinal

end StarOs.Kernel.Obj
