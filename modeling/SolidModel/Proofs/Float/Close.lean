import SolidModel.Proofs.Float.Error

/-!
# Closeness

What it means for floats to be close.

Closeness is computed with floats itself, and the allowance is rounded like anything else. Still it
is about numbers: floats whose values are within nine tenths of the absolute allowance are close,
and close floats have values that differ by little more than the allowance.

## Theorems

* `isClose_of_value`: Floats with almost the same value are close.
* `value_of_isClose`: Close floats have almost the same value.
-/

namespace SolidModel

open Float.Model UnpackedFloat

theorem value_absolute : value Tolerance.standard.absolute = 6044629098073146 * 2 ^ (-79 : ℤ) := by
  have h : parts Tolerance.standard.absolute =
      .finite .positive 6044629098073146 (-79) (by decide) := rfl
  rw [value, h, valueOf, signFactor, one_mul]
  norm_cast

theorem value_relative : value Tolerance.standard.relative = 5902958103587057 * 2 ^ (-69 : ℤ) := by
  have h : parts Tolerance.standard.relative =
      .finite .positive 5902958103587057 (-69) (by decide) := rfl
  rw [value, h, valueOf, signFactor, one_mul]
  norm_cast

/-- The allowance for a number of moderate size, as it is computed. -/
theorem near_allowance {y : Float} (hy : y.isFinite = true) (h : |value y| ≤ 2 ^ (20 : ℤ)) :
    Near (Tolerance.standard.absolute + Tolerance.standard.relative * y.abs)
      (value Tolerance.standard.absolute + value Tolerance.standard.relative * |value y|) 5
      (2 ^ (-51 : ℤ)) := by
  have habsolute : Near Tolerance.standard.absolute (value Tolerance.standard.absolute) 4 0 := by
    refine Near.self rfl ?_
    rw [value_absolute, abs_of_nonneg (by positivity)]
    norm_num
  have hrelative :
      Near Tolerance.standard.relative (value Tolerance.standard.relative) (-16) 0 := by
    refine Near.self rfl ?_
    rw [value_relative, abs_of_nonneg (by positivity)]
    norm_num
  have hsize : Near y.abs |value y| 20 0 := by
    have hself := Near.self (x := y.abs) (n := 20) (by rw [isFinite_abs, hy])
      (by rw [value_abs, abs_abs]; exact h)
    rwa [value_abs] at hself
  have hproduct := hrelative.mul hsize (by norm_num) (by norm_num) (by norm_num) (by norm_num)
  have hsum := habsolute.add hproduct (by norm_num) (by norm_num) (by norm_num) (by norm_num)
  exact hsum.weaken (by norm_num)

/-- Floats with almost the same value are close. Almost means a little less than the tolerance,
    which makes room for the rounding in the comparison itself. -/
theorem isClose_of_value {x y : Float} (hx : x.isFinite = true) (hy : y.isFinite = true)
    (hsize : |value y| ≤ 2 ^ (20 : ℤ)) (h : |value x - value y| ≤ 9 / 10 ^ 9) :
    Tolerance.standard.isClose x y = true := by
  have hrange : |value x - value y| ≤ 2 ^ (-26 : ℤ) := h.trans (by norm_num)
  rcases rounds_sub hx hy (hrange.trans (zpow_le_zpow_right₀ one_le_two (by norm_num))) with
    ⟨hfinite, hrounds⟩
  have herror := hrounds.abs_sub_le (by norm_num) hrange
  have hallowance := near_allowance hy hsize
  rw [Tolerance.isClose, decide_eq_true_iff,
    le_iff_value_le (by rw [isFinite_abs, hfinite]) hallowance.finite, value_abs]
  have hlow := (abs_le.mp hallowance.error).1
  have hshare : 0 ≤ value Tolerance.standard.relative * |value y| := by
    rw [value_relative]
    positivity
  have htriangle := abs_sub_abs_le_abs_sub (value (x - y)) (value x - value y)
  rw [value_absolute] at hlow
  norm_num at hlow herror
  linarith

/-- Close floats have almost the same value. How much they may differ depends on the second one
    only, as it does in the comparison. The first one need not be known to be finite. -/
theorem value_of_isClose {x y : Float} (hy : y.isFinite = true) (hsize : |value y| ≤ 2 ^ (20 : ℤ))
    (h : Tolerance.standard.isClose x y = true) :
    x.isFinite = true ∧ |value x - value y| ≤ 2 ^ (-26 : ℤ) + 2 ^ (-16 : ℤ) * |value y| := by
  have hallowance := near_allowance hy hsize
  rw [Tolerance.isClose, decide_eq_true_iff] at h
  have hfinite := isFinite_of_abs_le hallowance.finite h
  have hx := (isFinite_of_sub hfinite).1
  refine ⟨hx, ?_⟩
  rw [le_iff_value_le (by rw [isFinite_abs, hfinite]) hallowance.finite, value_abs] at h
  -- A computed difference is compared with a computed allowance, and both are a little off.
  have herror := (rounds_sub_of_isFinite hfinite).abs_sub_le_mul
  have hhigh := (abs_le.mp hallowance.error).2
  have htriangle := abs_sub_abs_le_abs_sub (value x - value y) (value (x - y))
  rw [abs_sub_comm (value x - value y) (value (x - y))] at htriangle
  have hleast : (2 : ℝ) ^ (-1075 : ℤ) ≤ 2 ^ (-60 : ℤ) :=
    zpow_le_zpow_right₀ one_le_two (by norm_num)
  have hpos := abs_nonneg (value y)
  rw [value_absolute, value_relative] at hhigh
  generalize (2 : ℝ) ^ (-1075 : ℤ) = least at *
  norm_num at hhigh herror hleast ⊢
  linarith

end SolidModel
