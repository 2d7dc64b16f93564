import SolidModel.Decimal.Word
import SolidModel.Proofs.Float.Packing

/-!
# Finite Classes

The class of a float says whether it is finite.

Printing and reading tell floats apart by the bits below the sign. Arithmetic asks whether a float
is finite, and gets the answer from its exponent. The exponent is the upper part of those bits, and
all of its bits are set in infinities and in what is no number, and in nothing else. So both say the
same.

## Theorems

* `isFinite_unpack_iff`: A word is finite exactly if it is below the word of infinity.
* `classify_eq_finite_iff`: A float is finite exactly if it is of a finite class.
* `isFinite_toFloat`: The float of a finite class is finite.
-/

namespace SolidModel

open Float.Model UnpackedFloat

/-- Whatever has no exponent of all ones is finite. -/
theorem isFinite_unpack_iff_exponent (word : BitVec 64) :
    (unpack Format.binary64 word).isFinite = true ↔
      @unpackExponent Format.binary64 word ≠ -1#11 := by
  unfold UnpackedFloat.unpack
  dsimp only
  split
  · next h =>
      rw [h]
      split <;> exact iff_of_false Bool.false_ne_true fun hne => hne rfl
  · next h =>
      refine iff_of_true ?_ h
      split
      · split <;> rfl
      · rfl

theorem toNat_unpackExponent (word : BitVec 64) :
    (@unpackExponent Format.binary64 word).toNat = word.toNat / 2 ^ 52 % 2 ^ 11 := by
  change (BitVec.extractLsb 62 52 word).toNat = _
  rw [BitVec.extractLsb_toNat, Nat.shiftRight_eq_div_pow]

/-- A word is finite exactly if it is below the word of infinity, but for its sign. So finite words
    can be told by comparing numbers, and nothing has to be unpacked for it. -/
theorem isFinite_unpack_iff (word : BitVec 64) :
    (unpack Format.binary64 word).isFinite = true ↔
      word.toNat % Nat.pow 2 63 < Word.infinity := by
  have hexponent : @unpackExponent Format.binary64 word ≠ -1#11 ↔
      word.toNat / 2 ^ 52 % 2 ^ 11 ≠ 2047 := by
    rw [← toNat_unpackExponent, not_iff_not, ← BitVec.toNat_inj]
    rfl
  rw [isFinite_unpack_iff_exponent, hexponent]
  change _ ↔ word.toNat % 9223372036854775808 < 2047 * 4503599627370496
  norm_num
  omega

/-- A float is finite exactly if it is of a finite class. -/
theorem classify_eq_finite_iff (x : Float) :
    (∃ negative word, classify x = .finite negative word) ↔ x.isFinite = true := by
  change _ ↔ (unpack Format.binary64 x.toBits.toBitVec).isFinite = true
  rw [isFinite_unpack_iff, classify]
  change _ ↔ x.toBits.toNat % Nat.pow 2 63 < Word.infinity
  split
  · next h => exact iff_of_true ⟨_, _, rfl⟩ h
  · next h =>
      refine iff_of_false ?_ h
      rintro ⟨negative, word, hclass⟩
      split at hclass <;> exact absurd hclass (by simp only [reduceCtorEq, not_false_eq_true])

/-- The float of a finite class is finite. -/
theorem isFinite_toFloat (negative : Bool) {word : Nat} (h : word < Word.infinity) :
    (FloatClass.finite negative word).toFloat.isFinite = true := by
  let bits := UInt64.ofNat (FloatClass.bits negative word)
  -- What is read from a word comes back from it, so that nothing is lost by storing it.
  have hparts : parts (Float.ofBits bits) = unpack Format.binary64 bits.toBitVec :=
    stored_eq_self (canonical_unpack _).1 (canonical_unpack _).2
  have hbound : Word.infinity < 2 ^ 63 := by decide
  have hword : FloatClass.bits negative word % 2 ^ 63 = word := by
    cases negative with
    | true =>
        change (2 ^ 63 + word) % 2 ^ 63 = word
        omega
    | false =>
        change word % 2 ^ 63 = word
        omega
  change (Float.ofBits bits).isFinite = true
  rw [isFinite_eq_parts, hparts, isFinite_unpack_iff]
  change (FloatClass.bits negative word % 2 ^ 64) % 9223372036854775808 < Word.infinity
  omega

end SolidModel
