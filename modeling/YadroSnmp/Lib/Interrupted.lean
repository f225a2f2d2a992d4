import Mathlib.Logic.Function.Iterate

/-! # Computations seen between two steps

A computation in steps leads to a result that each step leaves as it is. When a
step changes what an observer sees only to what the result shows, the observer
sees the beginning or the result, however many steps were made.
-/

namespace Interrupted

variable {σ ρ ν : Type*}

structure Staged (step : σ → σ) (finish : σ → ρ) (see : σ → ν) (final : ρ → ν) : Prop where
  finish_step : ∀ s, finish (step s) = finish s
  see_step : ∀ s, see (step s) = see s ∨ see (step s) = final (finish s)

variable {step : σ → σ} {finish : σ → ρ} {see : σ → ν} {final : ρ → ν} {left : σ → Nat}

theorem Staged.finish_iterate (h : Staged step finish see final) (n : Nat) (s : σ) :
    finish (step^[n] s) = finish s := by
  induction n with
  | zero => rfl
  | succ n ih => rw [Function.iterate_succ_apply', h.finish_step, ih]

theorem Staged.see_iterate (h : Staged step finish see final) (n : Nat) (s : σ) :
    see (step^[n] s) = see s ∨ see (step^[n] s) = final (finish s) := by
  induction n with
  | zero => exact .inl rfl
  | succ n ih =>
    rw [Function.iterate_succ_apply']
    rcases h.see_step (step^[n] s) with hKept | hFinal
    · rwa [hKept]
    · exact .inr (by rw [hFinal, h.finish_iterate])

/-- Each step leaves fewer steps to make, so enough of them leave none. -/
theorem left_iterate (h : ∀ s, left (step s) ≤ left s - 1) (n : Nat) (s : σ) :
    left (step^[n] s) ≤ left s - n := by
  induction n with
  | zero => exact Nat.le_refl _
  | succ n ih =>
    rw [Function.iterate_succ_apply', Nat.sub_succ]
    exact Nat.le_trans (h _) (Nat.sub_le_sub_right ih 1)

end Interrupted
