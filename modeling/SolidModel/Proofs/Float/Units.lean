import SolidModel.Proofs.Decimal.Layout
import SolidModel.Proofs.Float.Class
import SolidModel.Proofs.Float.Value

/-!
# Floats Counted in Units

The number a float stands for, from the word that is printed.

Printing knows a float as a sign and a word, which counts units of the least positive float.
Arithmetic knows it as a mantissa times a power of two. Both views take the same bits apart, and
both stand for the same number.

## Main definitions

* `signOf`: The factor of a sign.
* `Word.magnitude`: The number that a word stands for.

## Theorems

* `value_of_classify`: The value of a float of a finite class.
* `exists_word`: A finite float other than zero has a word that is not zero.
* `Word.magnitude_pos`: Only the word of zero stands for zero.
-/

namespace SolidModel

open Float.Model UnpackedFloat

/-- The factor of a sign. -/
def signOf (negative : Bool) : ℝ := if negative then -1 else 1

theorem abs_signOf (negative : Bool) : |signOf negative| = 1 := by
  cases negative with
  | true => exact (abs_neg 1).trans abs_one
  | false => exact abs_one

namespace Word

/-- The number that a word stands for. -/
noncomputable def magnitude (word : ℕ) : ℝ := units word / unitsPerOne

theorem cast_natPow (b n : ℕ) : ((Nat.pow b n : ℕ) : ℝ) = (b : ℝ) ^ n := Nat.cast_pow b n

theorem unitsPerOne_pos : 0 < unitsPerOne := by
  unfold unitsPerOne
  generalize 1074 = n
  exact Nat.two_pow_pos n

theorem cast_unitsPerOne : (unitsPerOne : ℝ) = 2 ^ (1074 : ℤ) := by
  unfold unitsPerOne
  generalize hn : 1074 = n
  rw [cast_natPow, ← zpow_natCast, ← hn]
  rfl

theorem magnitude_zero : magnitude 0 = 0 := by
  have hunits : units 0 = 0 := by decide
  rw [magnitude, hunits, Nat.cast_zero, zero_div]

/-- Only the word of zero stands for zero. -/
theorem magnitude_pos {word : ℕ} (h : word ≠ 0) : 0 < magnitude word := by
  have hunits : (0 : ℝ) < units word := by exact_mod_cast Nat.pos_of_ne_zero (units_ne_zero h)
  have hone : (0 : ℝ) < unitsPerOne := by exact_mod_cast unitsPerOne_pos
  exact div_pos hunits hone

/-- Without an exponent a word counts units as it is. -/
theorem magnitude_of_field_eq_zero {word : ℕ} (h : field word = 0) :
    magnitude word = (word % 2 ^ 52 : ℕ) * 2 ^ (-1074 : ℤ) := by
  rw [magnitude, units, mantissa, if_pos h, h, cast_unitsPerOne, zpow_neg, div_eq_mul_inv]
  change (((word % 2 ^ 52) * 1 : ℕ) : ℝ) * _ = _
  rw [mul_one]

/-- With an exponent a word counts larger units, and has one more bit. -/
theorem magnitude_of_field_pos {word : ℕ} (h : 0 < field word) :
    magnitude word = (2 ^ 52 + word % 2 ^ 52 : ℕ) * 2 ^ ((field word : ℤ) - 1075) := by
  have hexponent : (field word : ℤ) - 1075 = ((field word - 1 : ℕ) : ℤ) - 1074 := by omega
  rw [magnitude, units, mantissa, if_neg (by omega), cast_unitsPerOne, hexponent,
    zpow_sub₀ two_ne_zero, zpow_natCast, ← mul_div_assoc]
  change (((2 ^ 52 + word % 2 ^ 52) * 2 ^ (field word - 1) : ℕ) : ℝ) / _ = _
  push_cast
  rfl

end Word

theorem toNat_unpackMantissa (bits : BitVec 64) :
    (@unpackMantissa Format.binary64 bits).toNat = bits.toNat % 2 ^ 52 := by
  change (BitVec.extractLsb 51 0 bits).toNat = _
  rw [BitVec.extractLsb_toNat, Nat.shiftRight_zero]

/-- The sign is the topmost bit. -/
theorem signFactor_unpackSign (bits : BitVec 64) :
    signFactor (Sign.ofBitVec (@unpackSign Format.binary64 bits)) =
      signOf (decide (2 ^ 63 ≤ bits.toNat)) := by
  have hlt : bits.toNat < 2 ^ 64 := bits.isLt
  have hbit : (@unpackSign Format.binary64 bits).toNat = bits.toNat / 2 ^ 63 := by
    change (BitVec.extractLsb 63 63 bits).toNat = _
    rw [BitVec.extractLsb_toNat, Nat.shiftRight_eq_div_pow]
    omega
  unfold Sign.ofBitVec
  by_cases hsign : 2 ^ 63 ≤ bits.toNat
  · have hne : @unpackSign Format.binary64 bits ≠ 0#1 := by
      rw [Ne, ← BitVec.toNat_inj, hbit, BitVec.toNat_ofNat]
      omega
    rw [if_neg hne, decide_eq_true hsign]
    rfl
  · have heq : @unpackSign Format.binary64 bits = 0#1 := by
      rw [← BitVec.toNat_inj, hbit, BitVec.toNat_ofNat]
      omega
    rw [if_pos heq, decide_eq_false hsign]
    rfl

/-- What finite bits stand for is the signed magnitude of their word. -/
theorem valueOf_unpack {bits : BitVec 64} (h : bits.toNat % 2 ^ 63 < Word.infinity) :
    valueOf (unpack Format.binary64 bits) =
      signOf (decide (2 ^ 63 ≤ bits.toNat)) * Word.magnitude (bits.toNat % 2 ^ 63) := by
  have hfield : Word.field (bits.toNat % 2 ^ 63) =
      (@unpackExponent Format.binary64 bits).toNat := by
    rw [toNat_unpackExponent]
    change bits.toNat % 2 ^ 63 / 2 ^ 52 = _
    omega
  have hmantissa : bits.toNat % 2 ^ 63 % 2 ^ 52 =
      (@unpackMantissa Format.binary64 bits).toNat := by
    rw [toNat_unpackMantissa]
    omega
  have hfinite := (isFinite_unpack_iff_exponent bits).mp ((isFinite_unpack_iff bits).mpr h)
  rw [← signFactor_unpackSign]
  unfold UnpackedFloat.unpack
  dsimp only
  rw [if_neg hfinite]
  -- With a field of zero no leading one is understood.
  split
  · next hzero =>
      rw [hzero] at hfield
      rw [Word.magnitude_of_field_eq_zero hfield, hmantissa]
      split
      · next hnone =>
          rw [hnone]
          change (0 : ℝ) = _ * ((0 : ℕ) * _)
          rw [Nat.cast_zero, zero_mul, mul_zero]
      · rw [hzero]
        rfl
  · next hne =>
      -- With any other field it is.
      have hpos : 0 < Word.field (bits.toNat % 2 ^ 63) := by
        rw [hfield]
        refine Nat.pos_of_ne_zero fun hzero => hne ?_
        exact BitVec.eq_of_toNat_eq hzero
      rw [Word.magnitude_of_field_pos hpos, hmantissa, hfield]
      change signFactor _ * (((1#1 ++ _ : BitVec 53).toNat : ℝ) * _) = _
      rw [toNat_one_append]
      rfl

/-- The value of a float of a finite class. -/
theorem value_of_classify {x : Float} {negative : Bool} {word : ℕ}
    (h : classify x = .finite negative word) :
    value x = signOf negative * Word.magnitude word := by
  change valueOf (unpack Format.binary64 x.toBits.toBitVec) = _
  unfold classify at h
  dsimp only at h
  split at h
  · next hfinite =>
      rw [FloatClass.finite.injEq] at h
      rw [← h.1, ← h.2]
      exact valueOf_unpack hfinite
  · split at h <;> exact absurd h (by simp only [reduceCtorEq, not_false_eq_true])

/-- A finite float other than zero has a word that is not zero. -/
theorem exists_word {x : Float} (hfinite : x.isFinite = true) (hne : value x ≠ 0) :
    ∃ negative word, classify x = .finite negative word ∧ word ≠ 0 := by
  obtain ⟨negative, word, hclass⟩ := (classify_eq_finite_iff x).mpr hfinite
  refine ⟨negative, word, hclass, ?_⟩
  rintro rfl
  rw [value_of_classify hclass, Word.magnitude_zero, mul_zero] at hne
  exact hne rfl

end SolidModel
