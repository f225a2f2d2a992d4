import Mathlib.Algebra.Order.Floor.Ring
import Mathlib.Tactic.Linarith
import Mathlib.Tactic.Ring

/-! # Rounding to the nearest integer, halves away from zero

The rule is stated by comparing with every other integer, and determines the
result. It commutes with negation and keeps order, so that bounds on results
are bounds on what is rounded.
-/

namespace Rounding

variable {K : Type*} [Field K] [LinearOrder K] [IsStrictOrderedRing K] {q q' : K} {k k' n : ℤ}

/-- `k` is nearest to `q`, and of two nearest integers the one further from zero. -/
structure NearestAway (q : K) (k : ℤ) : Prop where
  nearest : ∀ m : ℤ, |q - k| ≤ |q - m|
  away : ∀ m : ℤ, |q - k| = |q - m| → |m| ≤ |k|

theorem le_half_of_abs_le {x : K} (h : |x| ≤ |x - 1|) : x ≤ 1 / 2 := by
  have hSq := sq_le_sq.mpr h
  have hExpand : (x - 1) ^ 2 = x ^ 2 - 2 * x + 1 := by ring
  linarith

namespace NearestAway

omit [IsStrictOrderedRing K] in
theorem neg (h : NearestAway q k) : NearestAway (-q) (-k) := by
  have hDist : ∀ m : ℤ, |-q - m| = |q - ((-m : ℤ) : K)| := by
    intro m
    rw [← abs_neg]
    push_cast
    ring_nf
  refine ⟨fun m => ?_, fun m hSame => ?_⟩
  · rw [hDist, hDist, neg_neg]
    exact h.nearest (-m)
  · rw [hDist, hDist, neg_neg] at hSame
    have hAway := h.away (-m) hSame
    rwa [abs_neg] at hAway ⊢

theorem abs_sub_le_half (h : NearestAway q k) : |q - k| ≤ 1 / 2 := by
  have hUp := h.nearest (k + 1)
  have hDown := h.nearest (k - 1)
  refine abs_le'.mpr ⟨le_half_of_abs_le ?_, le_half_of_abs_le ?_⟩
  · apply hUp.trans_eq
    push_cast
    ring_nf
  · rw [abs_neg]
    apply hDown.trans_eq
    rw [← abs_neg]
    push_cast
    ring_nf

theorem unique (h : NearestAway q k) (h' : NearestAway q k') : k = k' := by
  have hDist := (h.nearest k').antisymm (h'.nearest k)
  have hAbs := (h'.away k hDist.symm).antisymm (h.away k' hDist)
  rcases abs_eq_abs.mp hAbs with hSame | rfl
  · exact hSame
  · -- The two are opposite, and equally near only when both are zero.
    have hZero : (k' : K) = 0 := by
      have hNear := h'.nearest 0
      push_cast at hDist hNear
      rcases abs_eq_abs.mp hDist with hEq | hEq
      · linarith
      · have hq : q = 0 := by linarith
        simpa [hq] using hNear
    have hk : k' = 0 := Int.cast_eq_zero.mp hZero
    rw [hk, neg_zero]

theorem mono (h : NearestAway q k) (h' : NearestAway q' k') (hq : q ≤ q') : k ≤ k' := by
  obtain ⟨-, hLow⟩ := abs_le.mp h'.abs_sub_le_half
  obtain ⟨hHigh, -⟩ := abs_le.mp h.abs_sub_le_half
  by_contra hLt
  have hGap : (k' : K) + 1 ≤ k := by exact_mod_cast not_le.mp hLt
  have hSame : q = q' := by linarith
  subst hSame
  exact hLt (h.unique h').le

/-- Upper bounds on the result: the half above the bound goes past it. -/
theorem le_iff (h : NearestAway q k) (hn : 0 ≤ n) : k ≤ n ↔ q < n + 1 / 2 := by
  obtain ⟨hHigh, hLow⟩ := abs_le.mp h.abs_sub_le_half
  constructor
  · intro hk
    have hk' : (k : K) ≤ n := by exact_mod_cast hk
    refine lt_of_le_of_ne (by linarith) fun hTie => ?_
    have hkn : (k : K) = n := by linarith
    obtain rfl : k = n := Int.cast_injective hkn
    have hAway := h.away (k + 1) (by rw [hTie]; push_cast; norm_num)
    rw [abs_of_nonneg hn, abs_of_nonneg (by omega)] at hAway
    omega
  · intro hq
    by_contra hLt
    have hGap : (n : K) + 1 ≤ k := by exact_mod_cast not_le.mp hLt
    linarith

/-- Lower bounds likewise. -/
theorem ge_iff (h : NearestAway q k) (hn : n ≤ 0) : n ≤ k ↔ n - 1 / 2 < q := by
  rw [← neg_le_neg_iff, h.neg.le_iff (Int.neg_nonneg.mpr hn)]
  push_cast
  constructor
  · intro hq
    linarith
  · intro hq
    linarith

end NearestAway

variable [FloorRing K]

theorem nearestAway_floor (hq : 0 ≤ q) : NearestAway q ⌊q + 1 / 2⌋ := by
  have hLow := Int.floor_le (q + 1 / 2)
  have hHigh := Int.lt_floor_add_one (q + 1 / 2)
  have hPos : 0 ≤ ⌊q + 1 / 2⌋ := Int.floor_nonneg.mpr (by linarith)
  generalize ⌊q + 1 / 2⌋ = k at hLow hHigh hPos
  have hHalf : |q - k| ≤ 1 / 2 := abs_le.mpr ⟨by linarith, by linarith⟩
  have hAbove : ∀ m : ℤ, k < m → 1 / 2 < |q - m| := by
    intro m hm
    have hGap : (k : K) + 1 ≤ m := by exact_mod_cast hm
    rw [abs_sub_comm]
    exact lt_of_lt_of_le (by linarith) (le_abs_self _)
  have hBelow : ∀ m : ℤ, m < k → 1 / 2 ≤ |q - m| := by
    intro m hm
    have hGap : (m : K) + 1 ≤ k := by exact_mod_cast hm
    exact le_trans (by linarith) (le_abs_self _)
  refine ⟨fun m => ?_, fun m hSame => ?_⟩
  · rcases lt_trichotomy m k with hm | rfl | hm
    · exact hHalf.trans (hBelow m hm)
    · exact le_rfl
    · exact hHalf.trans (hAbove m hm).le
  · rcases lt_trichotomy m k with hm | rfl | hm
    · have hNonneg : 0 ≤ m := by
        by_contra hNeg
        have hGap : (m : K) + 1 ≤ 0 := by exact_mod_cast not_le.mp hNeg
        have hFar : q - m ≤ 1 / 2 := (le_abs_self _).trans (hSame ▸ hHalf)
        linarith
      rw [abs_of_nonneg hNonneg]
      exact hm.le.trans (le_abs_self k)
    · exact le_rfl
    · exact absurd (hSame ▸ hHalf) (not_le.mpr (hAbove m hm))

theorem nearestAway_ceil (hq : q ≤ 0) : NearestAway q ⌈q - 1 / 2⌉ := by
  have hNeg := (nearestAway_floor (neg_nonneg.mpr hq)).neg
  rw [neg_neg, ← Int.ceil_neg] at hNeg
  convert hNeg using 2
  ring

end Rounding
