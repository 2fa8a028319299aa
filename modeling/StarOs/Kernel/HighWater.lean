import StarOs.Kernel.Revocation
import Mathlib.Order.Bounds.Basic

/-! How large the object table gets. A create reuses the first empty slot and adds one only when
there is none, so after every call the table is as long as it was or as many objects as it
holds, whichever is more; along a run that is the largest number of objects held at once. -/

namespace StarOs.Kernel.Obj

/-- `obj::census`: how many slots there are, and how many of them are live. -/
def census (slots : Slots) : ℕ × ℕ := (slots.length, slots.countP fun s => s.object.isSome)

section

variable {slots : Slots}

theorem census_le (slots : Slots) : (census slots).2 ≤ (census slots).1 := List.countP_le_length

/-- All slots are counted exactly when no slot is free. -/
theorem census_full : (census slots).2 = (census slots).1 ↔ ∀ i < slots.length, Live slots i := by
  refine List.countP_eq_length.trans ?_
  rw [List.forall_mem_iff_getElem]
  refine forall₂_congr fun i hi => ?_
  simp [Live, List.getElem?_eq_getElem hi]

theorem census_full_of_none (h : slots[freeSlot slots]? = none) :
    (census slots).2 = (census slots).1 := by
  refine List.countP_eq_length.mpr fun slot hslot => ?_
  by_contra hnone
  have hlt : freeSlot slots < slots.length :=
    List.findIdx_lt_length_of_exists ⟨slot, hslot, by simpa using hnone⟩
  exact Nat.lt_irrefl _ (freeSlot_eq_length h ▸ hlt)

theorem census_set {i : ℕ} {slot : Slot} (h : slots[i]? = some slot) (slot' : Slot) :
    (census (slots.set i slot')).1 = (census slots).1 ∧
      (census (slots.set i slot')).2 + (if slot.object.isSome then 1 else 0) =
        (census slots).2 + (if slot'.object.isSome then 1 else 0) := by
  obtain ⟨hi, rfl⟩ := List.getElem?_eq_some_iff.mp h
  refine ⟨List.length_set, ?_⟩
  have hcount := List.countP_set (p := fun s : Slot => s.object.isSome) (a := slot') hi
  have hpos : slots[i].object.isSome → 0 < slots.countP fun s => s.object.isSome := fun hp =>
    List.countP_pos_iff.mpr ⟨_, List.getElem_mem hi, hp⟩
  simp only [census, hcount]
  by_cases hp : slots[i].object.isSome
  · have := hpos hp
    rw [if_pos hp]
    omega
  · rw [if_neg hp]
    omega

end

/-- A create that fails leaves the table as it is, and fails for want of an endpoint or of room;
one that succeeds adds an object, and a slot only when the table was full. -/
theorem create_census (grow : Bool) (object : Object) (slots : Slots) :
    (create grow object slots = (none, slots) ∧
      ((∃ id, object = .endpoint id ∧ endpointExists id = false) ∨
        (census slots).2 = (census slots).1 ∧ grow = false)) ∨
    ∃ r slots', create grow object slots = (some r, slots') ∧
      (∃ id, object = .endpoint id ∧ endpointExists id = true) ∧
      ((census slots).2 = (census slots).1 → grow = true) ∧
      (census slots').2 = (census slots).2 + 1 ∧
      (census slots').1 = max (census slots).1 ((census slots).2 + 1) := by
  obtain ⟨id⟩ := object
  cases hid : endpointExists id with
  | false =>
    left
    exact ⟨by simp [create, hid], .inl ⟨id, rfl, hid⟩⟩
  | true =>
    cases hs : slots[freeSlot slots]? with
    | some slot =>
      right
      have hnone := freeSlot_object hs
      obtain ⟨hlen, hlive⟩ := census_set hs { slot with object := some (.endpoint id) }
      simp only [hnone, Option.isSome_none, Option.isSome_some, if_true, Bool.false_eq_true,
        if_false, Nat.add_zero] at hlive
      have hle := census_le (slots.set (freeSlot slots) { slot with object := some (.endpoint id) })
      refine ⟨_, _, by simp only [create, hid, hs]; rfl, ⟨id, rfl, hid⟩, ?_, hlive, ?_⟩
      · intro hfull
        omega
      · omega
    | none =>
      have hfull := census_full_of_none hs
      cases grow with
      | false =>
        left
        exact ⟨by simp [create, hid, hs], .inr ⟨hfull, rfl⟩⟩
      | true =>
        right
        refine ⟨_, _, by simp only [create, hid, hs]; rfl, ⟨id, rfl, hid⟩, fun _ => rfl, ?_, ?_⟩
        · simp [census]
        · simp only [census, List.length_append, List.length_singleton] at hfull ⊢
          omega

theorem revoke_census (r : ObjectRef) (slots : Slots) :
    (census (revoke r slots).2).1 = (census slots).1 ∧
      (census (revoke r slots).2).2 ≤ (census slots).2 := by
  rcases revoke_cases r slots with ⟨h, -⟩ | ⟨slot, hs, -, ho, h⟩
  · rw [h]
    exact ⟨rfl, le_rfl⟩
  · obtain ⟨hlen, hlive⟩ := census_set hs ⟨r.generation + 1, none⟩
    simp only [ho, if_true, Option.isSome_none, Bool.false_eq_true, if_false] at hlive
    rw [h]
    exact ⟨hlen, Nat.le_of_lt (Nat.lt_of_succ_le hlive.le)⟩

/-- One call leaves the table as long as it was, or as many objects as it then holds. -/
theorem census_step (h : History) (op : Op) :
    (census (h.step op).slots).1 = max (census h.slots).1 (census (h.step op).slots).2 := by
  have hle := census_le h.slots
  cases op with
  | create object grow =>
    rcases create_census grow object h.slots with ⟨hno, -⟩ | ⟨r, slots', hyes, -, -, hlive, hlen⟩
    · simp only [History.step, hno]
      omega
    · simp only [History.step, hyes]
      omega
  | get r =>
    simp only [History.step]
    omega
  | revoke r =>
    obtain ⟨hlen, hlive⟩ := revoke_census r h.slots
    have hslots : (h.step (.revoke r)).slots = (revoke r h.slots).2 := by
      cases hres : revoke r h.slots with
      | mk done slots' => cases done <;> simp only [History.step, hres]
    rw [hslots]
    omega

/-- The numbers of live objects a run has been through. -/
def liveCounts (ops : List Op) : Set ℕ := {n | ∃ pre, pre <+: ops ∧ n = (census (history pre).slots).2}

theorem liveCounts_snoc (ops : List Op) (op : Op) : liveCounts (ops ++ [op]) =
    insert (census ((history ops).step op).slots).2 (liveCounts ops) := by
  ext n
  simp only [liveCounts, List.prefix_concat_iff, Set.mem_ofPred_eq, Set.mem_insert_iff]
  constructor
  · rintro ⟨pre, rfl | hpre, rfl⟩
    · exact .inl (by rw [history_snoc])
    · exact .inr ⟨pre, hpre, rfl⟩
  · rintro (rfl | ⟨pre, hpre, rfl⟩)
    · exact ⟨_, .inl rfl, by rw [history_snoc]⟩
    · exact ⟨pre, .inr hpre, rfl⟩

theorem isGreatest_census (ops : List Op) :
    IsGreatest (liveCounts ops) (census (history ops).slots).1 := by
  induction ops using List.reverseRecOn with
  | nil =>
    refine ⟨⟨[], List.prefix_rfl, rfl⟩, ?_⟩
    rintro n ⟨pre, hpre, rfl⟩
    rw [List.prefix_nil.mp hpre]
    exact le_rfl
  | append_singleton ops op ih =>
    rw [liveCounts_snoc, history_snoc, census_step, max_comm]
    exact ih.insert _

/-- A reference that resolves goes on resolving to the same object through every call but its own
revocation. -/
theorem get_step {h : History} {op : Op} {r : ObjectRef} {o : Object}
    (hget : get h.slots r = some o) (hop : op ≠ .revoke r) : get (h.step op).slots r = some o := by
  have hlive : Live h.slots r.index.toNat :=
    ((get_isSome_iff h.slots r).mp (by rw [hget]; rfl)).1
  cases op with
  | create object grow =>
    rcases create_cases grow object h.slots with hno | ⟨slots', hyes, -, hother, -⟩
    · simpa only [History.step, hno] using hget
    · have hne : r.index.toNat ≠ freeSlot h.slots := fun heq =>
        Consistent.not_live_freeSlot h.slots (heq ▸ hlive)
      simp only [History.step, hyes]
      simpa only [get, hother _ hne] using hget
  | get r' => exact hget
  | revoke r' =>
    rcases revoke_cases r' h.slots with ⟨hno, -⟩ | ⟨slot, hs, hg, -, hyes⟩
    · simpa only [History.step, hno] using hget
    · have hne : r'.index.toNat ≠ r.index.toNat := by
        intro heq
        -- both resolve in one slot, so both carry its generation
        have hgen := ((get_isSome_iff h.slots r).mp (by rw [hget]; rfl)).2
        rw [generationAt, ← heq, hs, Option.map_some, Option.getD_some, hg] at hgen
        have hidx : r'.index = r.index := UInt32.toNat_inj.mp heq
        exact hop (by rw [show r' = r by cases r'; cases r; simp_all])
      simp only [History.step, hyes]
      simpa only [get, List.getElem?_set_ne hne] using hget

/-- After any run the table has as many slots as there were ever objects at once; a create fails
only for want of an endpoint or of a slot the heap can give; and no call but a reference's own
revocation changes what it resolves to. -/
theorem settles_at_high_water (ops : List Op) :
    IsGreatest (liveCounts ops) (census (history ops).slots).1 ∧
    (∀ object grow, (create grow object (history ops).slots).1 = none ↔
      (∃ id, object = .endpoint id ∧ endpointExists id = false) ∨
        (∀ i < (history ops).slots.length, Live (history ops).slots i) ∧ grow = false) ∧
    ∀ op r o, get (history ops).slots r = some o → op ≠ .revoke r →
      get (history (ops ++ [op])).slots r = some o := by
  refine ⟨isGreatest_census ops, fun object grow => ?_, fun op r o hget hop => ?_⟩
  · rw [← census_full]
    rcases create_census grow object (history ops).slots with
      ⟨hno, hwhy⟩ | ⟨r, slots', hyes, ⟨id, rfl, hid⟩, hroom, -⟩
    · simpa only [hno, true_iff] using hwhy
    · refine iff_of_false (by rw [hyes]; exact nofun) ?_
      rintro (⟨id', heq, hid'⟩ | ⟨hfull, hgrow⟩)
      · obtain rfl := Object.endpoint.inj heq
        rw [hid] at hid'
        cases hid'
      · rw [hroom hfull] at hgrow
        cases hgrow
  · rw [history_snoc]
    exact get_step hget hop

end StarOs.Kernel.Obj
