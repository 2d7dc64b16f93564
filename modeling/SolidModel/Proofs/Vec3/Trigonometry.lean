import SolidModel.Proofs.Float.Value
import SolidModel.Vec3.Rotation

/-!
# Trigonometry Up to an Error

What is expected of the trigonometric functions of a platform.

Platforms promise sine, cosine and inverse cosine, but no last digit of them. So nothing here is
about the functions of any particular platform. All that is asked for is that they are near those of
real numbers, by a margin that leaves room for a few hundred units in the last place. Functions like
that exist: those of real numbers, cut off and rounded, are near themselves.

## Main definitions

* `Trigonometry.Accurate`: The functions of a platform are what they are meant to be.
* `Trigonometry.rounded`: The functions of real numbers, rounded.

## Theorems

* `Trigonometry.rounded_accurate`: Rounded functions are accurate.
-/

namespace SolidModel

open Float.Model UnpackedFloat

namespace Trigonometry

/-- Sine, cosine and inverse cosine are those of real numbers, up to an error. -/
structure Accurate (t : Trigonometry) : Prop where
  /-- The sine of a finite float is finite, and near to the sine of its value. -/
  sin : ∀ x : Float, x.isFinite = true →
    (t.sin x).isFinite = true ∧ |value (t.sin x) - Real.sin (value x)| ≤ 2 ^ (-45 : ℤ)
  /-- The cosine of a finite float is finite, and near to the cosine of its value. -/
  cos : ∀ x : Float, x.isFinite = true →
    (t.cos x).isFinite = true ∧ |value (t.cos x) - Real.cos (value x)| ≤ 2 ^ (-45 : ℤ)
  /-- The same holds of the inverse cosine, for floats that can be a cosine. -/
  acos : ∀ x : Float, x.isFinite = true → |value x| ≤ 1 →
    (t.acos x).isFinite = true ∧ |value (t.acos x) - Real.arccos (value x)| ≤ 2 ^ (-45 : ℤ)

/-- A number cut off after sixty binary digits, and rounded. -/
noncomputable def nearest (r : ℝ) : Float :=
  ⟨pack (UnpackedFloat.normalize Format.binary64 ⌊r * (2 ^ 60 : ℕ)⌋ (-60) .positive)⟩

theorem nearest_near {r : ℝ} (h : |r| ≤ 4) :
    (nearest r).isFinite = true ∧ |value (nearest r) - r| ≤ 2 ^ (-45 : ℤ) := by
  have hbelow := Int.floor_le (r * (2 ^ 60 : ℕ))
  have habove := Int.lt_floor_add_one (r * (2 ^ 60 : ℕ))
  have hnormalize := rounds_normalize ⌊r * (2 ^ 60 : ℕ)⌋ (-60) .positive
  have hparts : parts (nearest r) =
      stored (UnpackedFloat.normalize Format.binary64 ⌊r * (2 ^ 60 : ℕ)⌋ (-60) .positive) := rfl
  have h' := abs_le.mp h
  generalize (⌊r * (2 ^ 60 : ℕ)⌋ : ℤ) = m at *
  -- The number is cut off after sixty binary places, and what is left is rounded to a float.
  have hcut : |(m : ℝ) * 2 ^ (-60 : ℤ) - r| ≤ 2 ^ (-60 : ℤ) := by
    rw [abs_le]
    norm_num at hbelow habove ⊢
    constructor <;> linarith
  have hcut' := abs_le.mp hcut
  have hsize : |(m : ℝ) * 2 ^ (-60 : ℤ)| ≤ 2 ^ (3 : ℤ) := by
    rw [abs_le]
    norm_num at hcut' ⊢
    constructor <;> linarith
  rcases rounds_of_parts hparts hnormalize
    (hsize.trans (zpow_le_zpow_right₀ one_le_two (by norm_num))) with ⟨hfinite, hrounds⟩
  refine ⟨hfinite, (abs_sub_le _ ((m : ℝ) * 2 ^ (-60 : ℤ)) r).trans ?_⟩
  have herror := hrounds.abs_sub_le (by norm_num) hsize
  norm_num at herror hcut ⊢
  linarith

/-- The functions of real numbers, rounded. -/
@[reducible]
noncomputable def rounded : Trigonometry where
  sin x := nearest (Real.sin (value x))
  cos x := nearest (Real.cos (value x))
  acos x := nearest (Real.arccos (value x))

theorem rounded_accurate : rounded.Accurate where
  sin x _ := nearest_near ((Real.abs_sin_le_one _).trans (by norm_num))
  cos x _ := nearest_near ((Real.abs_cos_le_one _).trans (by norm_num))
  acos x _ _ := nearest_near (by
    rw [abs_of_nonneg (Real.arccos_nonneg _)]
    exact (Real.arccos_le_pi _).trans Real.pi_le_four)

end Trigonometry

end SolidModel
