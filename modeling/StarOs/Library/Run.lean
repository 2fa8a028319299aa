import Mathlib.Tactic.Common

/-! Runs of a labelled transition system, restricted to the labels in `S`, and the
two ways of proving something about every state of a run: an invariant, and an
invariant of an abstract system the steps refine. -/

namespace StarOs.Library

variable {σ τ α : Type} {step : σ → α → σ → Prop} {S : α → Prop}

inductive Run (step : σ → α → σ → Prop) (S : α → Prop) (s : σ) : σ → Prop where
  | refl : Run step S s s
  | tail {s' s'' : σ} {a : α} (h : Run step S s s') (ha : S a) (hs : step s' a s'') :
      Run step S s s''

namespace Run

variable {s s' s'' : σ}

theorem single {a : α} (ha : S a) (hs : step s a s') : Run step S s s' := .tail .refl ha hs

theorem trans (h : Run step S s s') (h' : Run step S s' s'') : Run step S s s'' := by
  induction h' with
  | refl => exact h
  | tail _ ha hs ih => exact ih.tail ha hs

theorem mono {S' : α → Prop} (h : Run step S s s') (hS : ∀ a, S a → S' a) : Run step S' s s' := by
  induction h with
  | refl => exact .refl
  | tail _ ha hs ih => exact ih.tail (hS _ ha) hs

/-- What holds at the start and survives every step holds at the end. -/
theorem invariant (Inv : σ → Prop) (h : Run step S s s') (h₀ : Inv s)
    (hstep : ∀ s a s', Inv s → S a → step s a s' → Inv s') : Inv s' := by
  induction h with
  | refl => exact h₀
  | tail _ ha hs ih => exact hstep _ _ _ ih ha hs

/-- When every step from an `Inv` state keeps `Inv` and is a step of `astep` under
`abs`, or invisible there, whatever `astep` preserves holds along the run. -/
theorem refines {Inv : σ → Prop} (abs : σ → τ) (astep : τ → τ → Prop) {P : τ → Prop}
    (h : Run step S s s') (h₀ : Inv s) (hP₀ : P (abs s))
    (hstep : ∀ s a s', Inv s → P (abs s) → S a → step s a s' →
      Inv s' ∧ (abs s' = abs s ∨ astep (abs s) (abs s')))
    (hP : ∀ x y, P x → astep x y → P y) : Inv s' ∧ P (abs s') := by
  refine h.invariant (fun s => Inv s ∧ P (abs s)) ⟨h₀, hP₀⟩ ?_
  rintro s a s' ⟨hi, hp⟩ ha hs
  obtain ⟨hi', heq | habs⟩ := hstep s a s' hi hp ha hs
  · exact ⟨hi', heq ▸ hp⟩
  · exact ⟨hi', hP _ _ hp habs⟩

end Run

end StarOs.Library
