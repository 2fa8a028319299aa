import StarOs.Paging.Mapper

/-! What a mapper does to its source it does by the source's own operations: whatever relates the
states around an allocation and around a store relates those around a call. -/

namespace StarOs.Paging

variable {σ : Type} {F : FrameSource σ} {R : σ → σ → Prop}

/-- A relation that the source's operations keep to. -/
structure Effect (F : FrameSource σ) (R : σ → σ → Prop) : Prop where
  refl : ∀ s, R s s
  trans : ∀ {s s₁ s₂}, R s s₁ → R s₁ s₂ → R s s₂
  alloc : ∀ s, R s (F.allocTable s).2
  write : ∀ s t i e, R s (F.write s t i e)

theorem Effect.nextTable (h : Effect F R) (table : UInt64) (i : ℕ) (r : Rights) (s : σ) :
    R s (nextTable F table i r s).2 := by
  unfold Paging.nextTable
  dsimp only
  split
  · split
    · exact h.refl s
    · dsimp only
      split
      · exact h.write s _ _ _
      · exact h.refl s
  · have halloc := h.alloc s
    split
    · next s₁ heq =>
      rw [heq] at halloc
      exact halloc
    · next page s₁ heq =>
      rw [heq] at halloc
      exact h.trans halloc (h.write s₁ _ _ _)

theorem Effect.mapLeafFrom (h : Effect F R) (virt : UInt64) (r : Rights) (level : ℕ) (bits : UInt64)
    (n : ℕ) (table : UInt64) (s : σ) : R s (mapLeafFrom F virt r level bits n table s).2 := by
  induction n generalizing table s with
  | zero => exact h.write s _ _ _
  | succ n ih =>
    have hnext := h.nextTable table (index virt (level + n + 1)) r s
    rw [Paging.mapLeafFrom]
    split
    · next e s₁ heq =>
      rw [heq] at hnext
      exact hnext
    · next u s₁ heq =>
      rw [heq] at hnext
      exact h.trans hnext (ih u s₁)

theorem Effect.mapLoop (h : Effect F R) (m : Mapper) (virt phys size : UInt64) (r : Rights)
    (ty : MemoryType) (n : ℕ) (done : UInt64) (s : σ) :
    R s (m.mapLoop F virt phys size r ty n done s).2 := by
  induction n generalizing done s with
  | zero => exact h.refl s
  | succ n ih =>
    rw [Mapper.mapLoop]
    split
    · dsimp only
      have hleaf := h.mapLeafFrom (virt + done) r
        (m.stepLevel (virt + done) (phys + done) (size - done))
        (leafEntry (phys + done) r ty (m.stepLevel (virt + done) (phys + done) (size - done)))
        (3 - m.stepLevel (virt + done) (phys + done) (size - done)) m.root s
      rw [Mapper.mapLeaf]
      split
      · next e s₁ heq =>
        rw [heq] at hleaf
        exact hleaf
      · next s₁ heq =>
        rw [heq] at hleaf
        exact h.trans hleaf (ih _ s₁)
    · exact h.refl s

theorem Effect.mapAs (h : Effect F R) (m : Mapper) (virt phys size : UInt64) (r : Rights)
    (ty : MemoryType) (s : σ) : R s (m.mapAs F virt phys size r ty s).2 := by
  unfold Mapper.mapAs
  split
  · exact h.refl s
  · exact h.mapLoop m virt phys size r ty _ 0 s

theorem Effect.new (h : Effect F R) (gib : Bool) (s : σ) : R s (Mapper.new F gib s).2 := by
  have halloc := h.alloc s
  unfold Mapper.new
  split
  · next s₁ heq =>
    rw [heq] at halloc
    exact halloc
  · next root s₁ heq =>
    rw [heq] at halloc
    exact halloc

end StarOs.Paging
