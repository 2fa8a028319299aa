import Mathlib.Algebra.Group.Nat.Defs
import StarOs.Kernel.Abi

/-! The object table: slots with a 32-bit generation, references that resolve
while the generation they were minted at is current, and the three operations
`create`, `get` and `revoke`. An index leaves the table as a `u32`, so both
halves of a reference are truncations of natural numbers. -/

namespace StarOs.Kernel

/-- A kernel resource a capability can name. -/
inductive Object where
  | endpoint (id : ℕ)
  deriving DecidableEq

/-- A slot and the generation it held when the reference was created. -/
structure ObjectRef where
  index : UInt32
  generation : UInt32
  deriving DecidableEq

/-- One slot: the live object, if any, and the current generation. -/
structure Slot where
  generation : UInt32
  object : Option Object
  deriving DecidableEq

/-- `OBJECTS`: the growable slot vector. -/
abbrev Slots := List Slot

namespace Obj

/-- The slot `create` takes: the first empty one, or the one past the end. -/
def freeSlot (slots : Slots) : ℕ := slots.findIdx (fun s => s.object.isNone)

/-- `obj::create`. `grow` is the heap's answer to `try_reserve(1)`. -/
def create (grow : Bool) (object : Object) (slots : Slots) : Option ObjectRef × Slots :=
  let .endpoint id := object
  if !endpointExists id then (none, slots)
  else
    let i := freeSlot slots
    match slots[i]? with
    | some slot =>
      -- reuse a revoked slot and keep its generation
      (some ⟨UInt32.ofNat i, slot.generation⟩, slots.set i { slot with object := some object })
    | none =>
      if grow then
        (some ⟨UInt32.ofNat slots.length, 0⟩, slots ++ [⟨0, some object⟩])
      else (none, slots)

/-- `obj::get`. -/
def get (slots : Slots) (r : ObjectRef) : Option Object :=
  match slots[r.index.toNat]? with
  | none => none
  | some slot => if slot.generation = r.generation then slot.object else none

/-- `obj::revoke`. The generation wraps at `2 ^ 32`. -/
def revoke (r : ObjectRef) (slots : Slots) : Bool × Slots :=
  match slots[r.index.toNat]? with
  | none => (false, slots)
  | some slot =>
    if slot.generation = r.generation ∧ slot.object.isSome then
      (true, slots.set r.index.toNat ⟨slot.generation + 1, none⟩)
    else (false, slots)

theorem freeSlot_le (slots : Slots) : freeSlot slots ≤ slots.length := List.findIdx_le_length

theorem freeSlot_object {slots : Slots} {slot : Slot} (h : slots[freeSlot slots]? = some slot) :
    slot.object = none := by
  obtain ⟨hi, rfl⟩ := List.getElem?_eq_some_iff.mp h
  exact Option.isNone_iff_eq_none.mp 
    (List.findIdx_getElem (p := fun s : Slot => s.object.isNone) (w := hi))

theorem freeSlot_eq_length {slots : Slots} (h : slots[freeSlot slots]? = none) :
    freeSlot slots = slots.length :=
  Nat.le_antisymm (freeSlot_le slots) (List.getElem?_eq_none_iff.mp h)

/-- The generation a slot holds, counting an absent slot as never used. -/
def generationAt (slots : Slots) (i : ℕ) : UInt32 := (slots[i]?.map Slot.generation).getD 0

/-- Whether slot `i` holds a live object. -/
def Live (slots : Slots) (i : ℕ) : Prop := ∃ slot, slots[i]? = some slot ∧ slot.object.isSome

/-- What a create does: it lands in the free slot at that slot's generation and
leaves every other slot alone, or it changes nothing. -/
theorem create_cases (grow : Bool) (object : Object) (slots : Slots) :
    (create grow object slots = (none, slots)) ∨
    ∃ slots', create grow object slots =
        (some ⟨UInt32.ofNat (freeSlot slots), generationAt slots (freeSlot slots)⟩, slots') ∧
      slots'[freeSlot slots]? = some ⟨generationAt slots (freeSlot slots), some object⟩ ∧
      (∀ j, j ≠ freeSlot slots → slots'[j]? = slots[j]?) ∧
      slots'.length = max slots.length (freeSlot slots + 1) := by
  obtain ⟨id⟩ := object
  by_cases hid : endpointExists id = true
  · cases hs : slots[freeSlot slots]? with
    | some slot =>
      obtain ⟨hlt, -⟩ := List.getElem?_eq_some_iff.mp hs
      right
      refine ⟨slots.set (freeSlot slots) { slot with object := some (.endpoint id) }, ?_, ?_, ?_, ?_⟩
      · simp [create, hid, hs, generationAt]
      · simp [List.getElem?_set_self hlt, generationAt, hs]
      · intro j hj
        exact List.getElem?_set_ne (Ne.symm hj)
      · simp only [List.length_set]; omega
    | none =>
      have hlen := freeSlot_eq_length hs
      cases grow with
      | false => left; simp [create, hid, hs]
      | true =>
        right
        refine ⟨slots ++ [⟨0, some (.endpoint id)⟩], ?_, ?_, ?_, ?_⟩
        · simp [create, hid, generationAt, hlen]
        · simp [hlen, generationAt]
        · intro j hj
          rw [hlen] at hj
          rcases Nat.lt_or_gt_of_ne hj with h | h
          · exact List.getElem?_append_left h
          · rw [List.getElem?_eq_none (by simp; omega), List.getElem?_eq_none (by omega)]
        · simp [hlen]
  · left; simp [create, hid]

/-- What a revoke does: it empties the live slot the reference names and moves
its generation on, or it changes nothing. -/
theorem revoke_cases (r : ObjectRef) (slots : Slots) :
    (revoke r slots = (false, slots) ∧ ¬ (get slots r).isSome) ∨
    ∃ slot, slots[r.index.toNat]? = some slot ∧ slot.generation = r.generation ∧
      slot.object.isSome ∧
      revoke r slots = (true, slots.set r.index.toNat ⟨r.generation + 1, none⟩) := by
  cases hs : slots[r.index.toNat]? with
  | none => left; simp [revoke, get, hs]
  | some slot =>
    by_cases hg : slot.generation = r.generation
    · cases ho : slot.object with
      | none => left; simp [revoke, get, hs, ho]
      | some o => right; exact ⟨slot, rfl, hg, by simp [ho], by simp [revoke, hs, hg, ho]⟩
    · left; simp [revoke, get, hs, hg]

theorem get_isSome_iff (slots : Slots) (r : ObjectRef) :
    (get slots r).isSome ↔ Live slots r.index.toNat ∧
      generationAt slots r.index.toNat = r.generation := by
  cases hs : slots[r.index.toNat]? with
  | none => simp [get, Live, hs]
  | some slot =>
    by_cases hg : slot.generation = r.generation <;> simp [get, Live, generationAt, hs, hg]

theorem revoke_fst (slots : Slots) (r : ObjectRef) : (revoke r slots).1 = (get slots r).isSome := by
  rcases revoke_cases r slots with ⟨h, hn⟩ | ⟨slot, hs, hg, ho, h⟩
  · simp [h, hn]
  · simp [h, get, hs, hg, ho]

/-- What resolves after a create resolved before, or is the new object. -/
theorem get_create {grow : Bool} {object o : Object} {slots slots' : Slots} {r r' : ObjectRef}
    (hc : create grow object slots = (some r, slots')) (h : get slots' r' = some o) :
    get slots r' = some o ∨ (r' = r ∧ o = object) := by
  rcases create_cases grow object slots with hno | ⟨slots₁, hyes, hself, hother, -⟩
  · rw [hno] at hc
    cases hc
  · rw [hyes] at hc
    obtain ⟨rfl, rfl⟩ : _ = r ∧ slots₁ = slots' := by simpa using hc
    by_cases hi : r'.index.toNat = freeSlot slots
    · right
      simp only [get, hi, hself] at h
      have hgen : generationAt slots (freeSlot slots) = r'.generation := by
        by_contra hne
        simp [hne] at h
      have hidx : UInt32.ofNat (freeSlot slots) = r'.index := by
        rw [← hi, UInt32.ofNat_toNat]
      rw [if_pos hgen] at h
      rw [hgen, hidx]
      exact ⟨rfl, (Option.some.inj h).symm⟩
    · left
      simpa only [get, hother _ hi] using h

/-- What resolves after a revoke resolved before, and is another object. -/
theorem get_revoke {o : Object} {slots slots' : Slots} {r r' : ObjectRef}
    (hr : revoke r slots = (true, slots')) (h : get slots' r' = some o) :
    get slots r' = some o ∧ r' ≠ r := by
  rcases revoke_cases r slots with ⟨hno, -⟩ | ⟨slot, hs, hg, ho, hyes⟩
  · rw [hno] at hr
    cases hr
  · rw [hyes] at hr
    obtain rfl : slots.set r.index.toNat ⟨r.generation + 1, none⟩ = slots' := by simpa using hr
    have hne : r'.index.toNat ≠ r.index.toNat := by
      intro heq
      have hlt := (List.getElem?_eq_some_iff.mp hs).1
      simp [get, heq, List.getElem?_set_self hlt] at h
    refine ⟨?_, fun heq => hne (heq ▸ rfl)⟩
    simpa only [get, List.getElem?_set_ne (Ne.symm hne)] using h

end Obj

end StarOs.Kernel
