import Mathlib.Data.List.Range
import Mathlib.Tactic.Common

/-! Loops over an index range as left folds, and the rule that carries a loop
invariant from one index to the next; loops under a test, which are given turns. -/

namespace StarOs.Library.Loop

variable {σ : Type*}

/-- `for i in 0..n`: the body is run at each index in order. -/
def forRange (n : ℕ) (f : σ → ℕ → σ) (s : σ) : σ := (List.range n).foldl f s

@[simp] theorem forRange_zero (f : σ → ℕ → σ) (s : σ) : forRange 0 f s = s := rfl

theorem forRange_succ (n : ℕ) (f : σ → ℕ → σ) (s : σ) :
    forRange (n + 1) f s = f (forRange n f s) n := by
  simp [forRange, List.range_succ]

/-- The invariant rule: `P i` holds on reaching index `i`. -/
theorem forRange_invariant {P : ℕ → σ → Prop} {n : ℕ} {f : σ → ℕ → σ} {s : σ} (h0 : P 0 s)
    (hstep : ∀ i < n, ∀ s, P i s → P (i + 1) (f s i)) : P n (forRange n f s) := by
  induction n with
  | zero => exact h0
  | succ n ih =>
    rw [forRange_succ]
    exact hstep n (by omega) _ (ih fun i hi => hstep i (by omega))

/-- The invariant rule for a loop over a list: `P` sees what has been visited. -/
theorem foldl_invariant {α : Type*} {P : List α → σ → Prop} {f : σ → α → σ} (l : List α) {s : σ}
    (h0 : P [] s) (hstep : ∀ pre a, pre ++ [a] <+: l → ∀ s, P pre s → P (pre ++ [a]) (f s a)) :
    P l (l.foldl f s) := by
  induction l using List.reverseRecOn with
  | nil => exact h0
  | append_singleton l a ih =>
    rw [List.foldl_append]
    refine hstep l a List.prefix_rfl _ (ih fun pre b hp => hstep pre b ?_)
    exact hp.trans (List.prefix_append _ _)

/-- `while`: the body answers none where the test fails. None for a loop that is not over after
`turns` turns. -/
def whileSome (body : σ → Option σ) : ℕ → σ → Option σ
  | 0, s => if (body s).isNone then some s else none
  | turns + 1, s =>
    match body s with
    | none => some s
    | some s => whileSome body turns s

theorem whileSome_stop {body : σ → Option σ} {s : σ} (h : body s = none) (turns : ℕ) :
    whileSome body turns s = some s := by
  cases turns with
  | zero => simp [whileSome, h]
  | succ turns => simp [whileSome, h]

theorem whileSome_turn {body : σ → Option σ} {s s' : σ} (h : body s = some s') (turns : ℕ) :
    whileSome body (turns + 1) s = whileSome body turns s' := by
  simp [whileSome, h]

end StarOs.Library.Loop
