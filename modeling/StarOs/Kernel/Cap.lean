import StarOs.Kernel.Obj

/-! Capability tables. A handle is an index into its task's table, handed out
bottom-up from 1; index 0 is the null handle and stays empty. -/

namespace StarOs.Kernel

/-- Which object a capability refers to and what its holder may do. -/
inductive Cap where
  | endpoint (obj : ObjectRef) (send recv : Bool)
  deriving DecidableEq

/-- The object a capability refers to. -/
def Cap.object : Cap → ObjectRef
  | .endpoint obj _ _ => obj

/-- A task's table, indexed by handle value. -/
abbrev CapTable := List (Option Cap)

/-- The heap at the moment of a call, as the tables see it: how many slots a table
may grow to. `mem::init` gives the heap a mebibyte beyond the frame pool's own
metadata, and a slot takes twelve bytes of it, so an index always fits in a `u32`. -/
structure Heap where
  slots : ℕ
  bounded : slots < 2 ^ 32

/-- Whether a table may grow to `n` slots. -/
def Heap.serves (heap : Heap) (n : ℕ) : Bool := n ≤ heap.slots

/-- `cap::empty_caps`: the null handle and nothing else. -/
def emptyCaps : CapTable := [none]

namespace CapTable

/-- The slot `install` takes: the first empty one after the null handle, or the
one past the end. -/
def freeSlot (table : CapTable) : ℕ :=
  match (table.drop 1).findIdx? Option.isNone with
  | some free => free + 1
  | none => table.length

/-- `cap::install`. `grow` is the heap's answer to `try_reserve(1)`; the handle
leaves as a `u32`. -/
def install (grow : Bool) (table : CapTable) (cap : Cap) : Option (UInt32 × CapTable) :=
  match (table.drop 1).findIdx? Option.isNone with
  | some free => some (UInt32.ofNat (free + 1), table.set (free + 1) (some cap))
  | none =>
    if grow then
      let table := table ++ [some cap]
      some (UInt32.ofNat (table.length - 1), table)
    else none

/-- `cap::resolve`. -/
def resolve (table : CapTable) (handle : UInt32) : Option Cap :=
  if handle = 0 then none else table[handle.toNat]?.join

/-- Slot 0 is there and empty. -/
def Sealed (table : CapTable) : Prop := table[0]? = some none

theorem emptyCaps_sealed : Sealed emptyCaps := rfl

theorem Sealed.length_pos {table : CapTable} (h : Sealed table) : 0 < table.length := by
  obtain ⟨hlt, -⟩ := List.getElem?_eq_some_iff.mp h
  exact hlt

theorem freeSlot_pos {table : CapTable} (h : Sealed table) : 0 < freeSlot table := by
  unfold freeSlot
  split
  · exact Nat.succ_pos _
  · exact h.length_pos

/-- The slot taken was empty. -/
theorem freeSlot_empty (table : CapTable) : table[freeSlot table]?.join = none := by
  unfold freeSlot
  split
  · rename_i free hfree
    obtain ⟨hlt, hnone, -⟩ := List.findIdx?_eq_some_iff_getElem.mp hfree
    rw [List.getElem_drop] at hnone
    rw [List.length_drop] at hlt
    rw [Nat.add_comm free 1, List.getElem?_eq_getElem (by omega)]
    simpa using hnone
  · simp

/-- An install fails when no slot is empty and the heap does not let the table grow. -/
theorem install_eq_none_iff {grow : Bool} {table : CapTable} {cap : Cap} :
    install grow table cap = none ↔ (∀ slot ∈ table.drop 1, slot.isSome) ∧ grow = false := by
  unfold install
  cases hf : (table.drop 1).findIdx? Option.isNone with
  | some free =>
    obtain ⟨hlt, hnone, -⟩ := List.findIdx?_eq_some_iff_getElem.mp hf
    simp only [reduceCtorEq, false_iff, not_and]
    intro hall
    have hsome := hall _ (List.getElem_mem hlt)
    rw [Option.isNone_iff_eq_none.mp hnone] at hsome
    cases hsome
  | none =>
    rw [List.findIdx?_eq_none_iff] at hf
    have hall : ∀ slot ∈ table.drop 1, slot.isSome := by
      intro slot hmem
      cases slot with
      | none => cases hf none hmem
      | some c => rfl
    cases grow with
    | false => simpa using hall
    | true => simp

/-- What an install does: it fills the free slot, whose index it returns as a
`u32`, and leaves every other slot alone. -/
theorem install_spec {grow : Bool} {table table' : CapTable} {cap : Cap} {h : UInt32}
    (hi : install grow table cap = some (h, table')) :
    h = UInt32.ofNat (freeSlot table) ∧ table'[freeSlot table]? = some (some cap) ∧
      ∀ j, j ≠ freeSlot table → table'[j]? = table[j]? := by
  unfold install at hi
  unfold freeSlot
  cases hf : (table.drop 1).findIdx? Option.isNone with
  | some free =>
    simp only [hf, Option.some.injEq, Prod.mk.injEq] at hi
    obtain ⟨rfl, rfl⟩ := hi
    obtain ⟨hlt, -, -⟩ := List.findIdx?_eq_some_iff_getElem.mp hf
    rw [List.length_drop] at hlt
    refine ⟨rfl, ?_, ?_⟩
    · exact List.getElem?_set_self (by omega)
    · intro j hj
      exact List.getElem?_set_ne (Ne.symm hj)
  | none =>
    rw [hf] at hi
    cases grow with
    | false => cases hi
    | true =>
      obtain ⟨rfl, rfl⟩ : UInt32.ofNat table.length = h ∧ table ++ [some cap] = table' := by
        simpa using hi
      refine ⟨rfl, ?_, ?_⟩
      · simp
      · intro j hj
        change j ≠ table.length at hj
        rcases Nat.lt_or_gt_of_ne hj with hlt | hgt
        · exact List.getElem?_append_left hlt
        · rw [List.getElem?_eq_none (by simp; omega), List.getElem?_eq_none (by omega)]

theorem install_sealed {grow : Bool} {table table' : CapTable} {cap : Cap} {h : UInt32}
    (hs : Sealed table) (hi : install grow table cap = some (h, table')) : Sealed table' := by
  obtain ⟨-, -, hother⟩ := install_spec hi
  exact (hother 0 (Nat.ne_of_lt (freeSlot_pos hs))).trans hs

/-- Every capability in the new table was there, or is the one installed. -/
theorem mem_install {grow : Bool} {table table' : CapTable} {cap c : Cap} {h : UInt32}
    (hi : install grow table cap = some (h, table')) (hc : some c ∈ table') :
    c = cap ∨ some c ∈ table := by
  obtain ⟨-, hself, hother⟩ := install_spec hi
  obtain ⟨j, hj⟩ := List.mem_iff_getElem?.mp hc
  by_cases hfree : j = freeSlot table
  · rw [hfree, hself] at hj
    left
    simpa using hj.symm
  · rw [hother j hfree] at hj
    exact .inr (List.mem_of_getElem? hj)

/-- A table the heap let grow still has indices that fit in a `u32`. -/
theorem install_lt {heap : Heap} {table table' : CapTable} {cap : Cap} {h : UInt32}
    (hlt : table.length < 2 ^ 32)
    (hi : install (heap.serves (table.length + 1)) table cap = some (h, table')) :
    table'.length < 2 ^ 32 ∧ freeSlot table < 2 ^ 32 := by
  unfold install at hi
  unfold freeSlot
  cases hf : (table.drop 1).findIdx? Option.isNone with
  | some free =>
    simp only [hf, Option.some.injEq, Prod.mk.injEq] at hi
    obtain ⟨-, rfl⟩ := hi
    obtain ⟨hfree, -⟩ := List.findIdx?_eq_some_iff_getElem.mp hf
    rw [List.length_drop] at hfree
    rw [List.length_set]
    exact ⟨hlt, by dsimp only; omega⟩
  | none =>
    refine ⟨?_, hlt⟩
    rw [hf] at hi
    cases hgrow : heap.serves (table.length + 1) with
    | false =>
      rw [hgrow] at hi
      cases hi
    | true =>
      rw [hgrow] at hi
      obtain ⟨-, rfl⟩ : _ ∧ table ++ [some cap] = table' := by simpa using hi
      have hle : table.length + 1 ≤ heap.slots := by simpa [Heap.serves] using hgrow
      have := heap.bounded
      rw [List.length_append, List.length_singleton]
      omega

theorem resolve_mem {table : CapTable} {handle : UInt32} {c : Cap}
    (h : resolve table handle = some c) : some c ∈ table := by
  unfold resolve at h
  split at h
  · cases h
  · exact List.mem_of_getElem? (Option.join_eq_some_iff.mp h)

/-- An install changes the meaning of no handle that meant something. -/
theorem resolve_install_of_some {grow : Bool} {table table' : CapTable} {cap c : Cap}
    {h handle : UInt32} (hi : install grow table cap = some (h, table'))
    (hr : resolve table handle = some c) : resolve table' handle = some c := by
  obtain ⟨-, -, hother⟩ := install_spec hi
  unfold resolve at hr ⊢
  split at hr
  · cases hr
  · rename_i hne
    have hslot : handle.toNat ≠ freeSlot table := by
      intro heq
      rw [heq, freeSlot_empty] at hr
      cases hr
    rw [if_neg hne, hother _ hslot]
    exact hr

/-- A handle that means something after an install meant it before, or means the
capability installed. -/
theorem resolve_of_install {grow : Bool} {table table' : CapTable} {cap c : Cap}
    {h handle : UInt32} (hi : install grow table cap = some (h, table'))
    (hr : resolve table' handle = some c) : resolve table handle = some c ∨ c = cap := by
  obtain ⟨-, hself, hother⟩ := install_spec hi
  unfold resolve at hr ⊢
  split at hr
  · cases hr
  · rename_i hne
    rw [if_neg hne]
    by_cases hslot : handle.toNat = freeSlot table
    · rw [hslot, hself] at hr
      exact .inr (by simpa using hr.symm)
    · rw [hother _ hslot] at hr
      exact .inl hr

/-- The handle returned resolves to the capability installed exactly when its
index fits in a `u32`. -/
theorem resolve_install_of_lt {grow : Bool} {table table' : CapTable} {cap : Cap} {h : UInt32}
    (hs : Sealed table) (hi : install grow table cap = some (h, table'))
    (hlt : freeSlot table < 2 ^ 32) :
    h ≠ 0 ∧ resolve table h = none ∧ resolve table' h = some cap := by
  obtain ⟨rfl, hself, -⟩ := install_spec hi
  have htoNat : (UInt32.ofNat (freeSlot table)).toNat = freeSlot table :=
    UInt32.toNat_ofNat_of_lt' hlt
  have hne : UInt32.ofNat (freeSlot table) ≠ 0 := by
    intro h0
    have hzero : (UInt32.ofNat (freeSlot table)).toNat = 0 := by rw [h0]; rfl
    have := freeSlot_pos hs
    omega
  refine ⟨hne, ?_, ?_⟩
  · rw [resolve, if_neg hne, htoNat, freeSlot_empty]
  · rw [resolve, if_neg hne, htoNat, hself]; rfl

end CapTable

end StarOs.Kernel
