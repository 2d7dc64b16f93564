import SolidModel.Decimal.Rounded
import SolidModel.Proofs.Decimal.HalfEven
import SolidModel.Proofs.Float.Units

/-!
# Two Roundings Agree

The digits of a rounded number do not depend on which of the two roundings they come from.

The first rounding is to significant digits. If all of them round up, the leading digit moves to the
next power of ten, and the second rounding is then to one place less than the first was. It does not
round what the first has left, but the number itself, which is within half a step below the power of
ten. On steps ten times as wide it is much closer than half a step, and so it is rounded to the same
power. In all other cases the two roundings are to the same place and are one and the same.

## Theorems

* `Word.steps_eq_halfEven`: A magnitude is rounded to a place as real numbers are.
* `Word.digits_scientific`: How many digits there are in scientific form.
* `Word.value_scientific`: The scientific form is the number rounded to significant digits.
* `Word.steps_scientific`: The second rounding gives the digits of the first.
* `Word.leading_scientific`: The leading digit of the rounded number.
-/

namespace SolidModel

theorem significant_signOf_mul (count : ℕ) (negative : Bool) (v : ℝ) :
    significant count (signOf negative * v) = signOf negative * significant count v := by
  cases negative with
  | true =>
      change significant count (-1 * v) = -1 * significant count v
      rw [neg_one_mul, neg_one_mul, significant_neg]
  | false =>
      change significant count (1 * v) = 1 * significant count v
      rw [one_mul, one_mul]

/-- A power of ten as a ratio of naturals, one of which is one. -/
theorem ten_zpow_eq_div (g : ℤ) : (10 : ℝ) ^ g = 10 ^ g.toNat / 10 ^ (-g).toNat := by
  have hg : g = (g.toNat : ℤ) - ((-g).toNat : ℤ) := by omega
  conv_lhs => rw [hg, zpow_sub₀ (by norm_num), zpow_natCast, zpow_natCast]

namespace Word

/-- A magnitude is rounded to a place as real numbers are. -/
theorem steps_eq_halfEven (word : ℕ) (g : ℤ) :
    (steps word g : ℤ) = halfEven (magnitude word / 10 ^ g) := by
  have hden : 0 < gridDen g := Nat.mul_pos unitsPerOne_pos (Nat.pow_pos (by decide))
  have hgrid : (gridNum word g : ℝ) / gridDen g = magnitude word / 10 ^ g := by
    rw [ten_zpow_eq_div, magnitude, gridNum, gridDen, div_div_div_eq, Nat.cast_mul, Nat.cast_mul,
      cast_natPow, cast_natPow, Nat.cast_ofNat]
  rw [steps, ← halfEven_div _ hden, hgrid]

theorem leading_eq_log {word : ℕ} (hword : word ≠ 0) :
    leading word = Int.log 10 (magnitude word) :=
  leadingOf_eq_log (Nat.pos_of_ne_zero (units_ne_zero hword)) unitsPerOne_pos

/-- In steps that leave `k` digits behind the leading one, a magnitude has `k + 1` digits before the
    point. -/
theorem magnitude_in_steps {word : ℕ} (hword : word ≠ 0) (k : ℕ) :
    10 ^ k ≤ magnitude word / 10 ^ (leading word - k) ∧
      magnitude word / 10 ^ (leading word - k) < 10 ^ (k + 1) := by
  have hpos := magnitude_pos hword
  have hlow := Int.zpow_log_le_self (b := 10) (by decide) hpos
  have hhigh := Int.lt_zpow_succ_log_self (b := 10) (by decide) (magnitude word)
  rw [← leading_eq_log hword, Nat.cast_ofNat] at hlow hhigh
  constructor
  · rw [le_div_iff₀ (by positivity), ← zpow_natCast, ← zpow_add₀ (by norm_num), add_sub_cancel]
    exact hlow
  · rw [div_lt_iff₀ (by positivity), ← zpow_natCast, ← zpow_add₀ (by norm_num)]
    have hexponent : ((k + 1 : ℕ) : ℤ) + (leading word - k) = leading word + 1 := by
      push_cast
      ring
    rw [hexponent]
    exact hhigh

section Cases

variable {word k : ℕ}

theorem scientific_of_carry (h : steps word (leading word - k) = 10 ^ (k + 1)) :
    scientific (k + 1) word = ⟨10 ^ k, leading word - k + 1⟩ := by
  have hplace : leading word - (k + 1 : ℕ) + 1 = leading word - k := by omega
  unfold scientific
  dsimp only
  rw [hplace]
  exact if_pos h

theorem scientific_of_ne (h : steps word (leading word - k) ≠ 10 ^ (k + 1)) :
    scientific (k + 1) word = ⟨steps word (leading word - k), leading word - k⟩ := by
  have hplace : leading word - (k + 1 : ℕ) + 1 = leading word - k := by omega
  unfold scientific
  dsimp only
  rw [hplace]
  exact if_neg h

end Cases

section Scientific

variable {word : ℕ} (hword : word ≠ 0) (k : ℕ)

include hword

/-- The first rounding leaves the digits asked for, or all of them have rounded up. -/
theorem steps_bounds : 10 ^ k ≤ steps word (leading word - k) ∧
    steps word (leading word - k) ≤ 10 ^ (k + 1) := by
  have hnearest : NearestEven (magnitude word / 10 ^ (leading word - k))
      (steps word (leading word - k)) := by
    rw [steps_eq_halfEven]
    exact nearestEven_halfEven _
  obtain ⟨hlow, hhigh⟩ := magnitude_in_steps hword k
  have hge := hnearest.ge_of_ge (m := 10 ^ k) (by exact_mod_cast hlow)
  have hle := hnearest.le_of_le (m := 10 ^ (k + 1)) (by exact_mod_cast hhigh.le)
  exact ⟨by exact_mod_cast hge, by exact_mod_cast hle⟩

/-- There are as many digits in scientific form as are asked for. That is also true where rounding
    has carried over into a new digit, since the last one is dropped then. -/
theorem digits_scientific : 10 ^ k ≤ (scientific (k + 1) word).digits ∧
    (scientific (k + 1) word).digits < 10 ^ (k + 1) := by
  obtain ⟨hlow, hhigh⟩ := steps_bounds hword k
  by_cases hcarry : steps word (leading word - k) = 10 ^ (k + 1)
  · rw [scientific_of_carry hcarry]
    exact ⟨le_refl (10 ^ k), Nat.pow_lt_pow_right (by decide) (Nat.lt_succ_self k)⟩
  · rw [scientific_of_ne hcarry]
    dsimp only
    exact ⟨hlow, lt_of_le_of_ne hhigh hcarry⟩

theorem digits_scientific_pos : 0 < (scientific (k + 1) word).digits :=
  Nat.lt_of_lt_of_le (Nat.pow_pos (by decide)) (digits_scientific hword k).1

/-- The scientific form is the number rounded to significant digits. -/
theorem value_scientific :
    (scientific (k + 1) word).value = significant (k + 1) (magnitude word) := by
  have hplace : leading word - (k + 1 : ℕ) + 1 = leading word - k := by omega
  have hsignificant : significant (k + 1) (magnitude word) =
      (steps word (leading word - k) : ℝ) * 10 ^ (leading word - k) := by
    unfold significant
    dsimp only
    rw [abs_of_pos (magnitude_pos hword), ← leading_eq_log hword, hplace, ← steps_eq_halfEven,
      Int.cast_natCast]
  rw [hsignificant]
  by_cases hcarry : steps word (leading word - k) = 10 ^ (k + 1)
  · rw [scientific_of_carry hcarry, hcarry, Decimal.value, zpow_add_one₀ (by norm_num)]
    push_cast
    ring
  · rw [scientific_of_ne hcarry, Decimal.value]

/-- The second rounding gives the digits of the first. It is made at the place that the first
    rounding has led to, which may be one higher than that of the number itself: the digits are a
    power of ten then, and come out the same. -/
theorem steps_scientific : steps word (scientific (k + 1) word).exponent =
    (scientific (k + 1) word).digits := by
  by_cases hcarry : steps word (leading word - k) = 10 ^ (k + 1)
  · -- The number is less than half a narrow step below the power of ten.
    have hnearest := nearestEven_halfEven (magnitude word / 10 ^ (leading word - k))
    rw [← steps_eq_halfEven, hcarry] at hnearest
    have hnear := (abs_le.mp hnearest.near).1
    have hlt := (magnitude_in_steps hword k).2
    push_cast at hnear
    -- Ten narrow steps are one wide step.
    have hwide : magnitude word / 10 ^ (leading word - k + 1) =
        magnitude word / 10 ^ (leading word - k) / 10 := by
      rw [zpow_add_one₀ (by norm_num), div_div]
    have hclose : |magnitude word / 10 ^ (leading word - k + 1) - ((10 ^ k : ℕ) : ℤ)| < 1 / 2 := by
      rw [hwide, abs_lt]
      push_cast
      rw [pow_succ] at hnear hlt
      constructor <;> linarith
    rw [scientific_of_carry hcarry]
    dsimp only
    have heq := (NearestEven.of_lt hclose).eq_halfEven
    rw [← steps_eq_halfEven] at heq
    exact_mod_cast heq.symm
  · rw [scientific_of_ne hcarry]

/-- The leading digit stands as far above the last one as there are digits behind it. -/
theorem leading_eq_exponent_add : (scientific (k + 1) word).leading =
    (scientific (k + 1) word).exponent + k := by
  obtain ⟨hlow, hhigh⟩ := digits_scientific hword k
  have hlength : (scientific (k + 1) word).chars.length = k + 1 := length_toDigits_eq hlow hhigh
  rw [Decimal.leading, hlength]
  push_cast
  ring

/-- The leading digit of the rounded number. -/
theorem leading_scientific : (scientific (k + 1) word).leading =
    Int.log 10 (significant (k + 1) (magnitude word)) := by
  obtain ⟨hlow, hhigh⟩ := digits_scientific hword k
  rw [leading_eq_exponent_add hword, ← value_scientific hword]
  generalize scientific (k + 1) word = d at hlow hhigh
  have hlow' : (10 : ℝ) ^ (k : ℤ) ≤ d.digits := by exact_mod_cast hlow
  have hhigh' : (d.digits : ℝ) < 10 ^ ((k : ℤ) + 1) := by exact_mod_cast hhigh
  rw [Decimal.value, eq_comm]
  refine log_ten_eq ?_ ?_
  · rw [add_comm, zpow_add₀ (by norm_num)]
    exact mul_le_mul_of_nonneg_right hlow' (by positivity)
  · rw [add_assoc, add_comm, zpow_add₀ (by norm_num)]
    exact mul_lt_mul_of_pos_right hhigh' (by positivity)

theorem significant_pos : 0 < significant (k + 1) (magnitude word) := by
  have hdigits : (0 : ℝ) < (scientific (k + 1) word).digits := by
    exact_mod_cast digits_scientific_pos hword k
  rw [← value_scientific hword]
  exact mul_pos hdigits (zpow_pos (by norm_num) _)

end Scientific

end Word

end SolidModel
