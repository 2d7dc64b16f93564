import Mathlib
import SolidModel.Vec3.Basic

/-!
# Floats Taken Apart

What arithmetic on floats does to signs, and to numbers that are finite.

A float is a word of sixty-four bits, and arithmetic takes it apart into a sign, a mantissa and an
exponent, or one of the special values, before it computes anything. `parts` is that view. The
result is put together again afterwards. That step, `stored`, may turn a number that is too large
into an infinity and one that is too small into a zero, but it never changes a sign and never makes
anything that is no number.

## Main definitions

* `parts`: A float taken apart.
* `stored`: What is left of a result when it has been put together.
* `Signed`: A number with a given sign, be it finite or not.

## Theorems

* `parts_add`, `parts_sub`, `parts_mul`, `parts_abs`: The arithmetic of parts.
* `Signed.stored`: To put a number together keeps its sign.
* `Signed.add`, `Signed.mul_finite`, `signed_abs`: Signs of sums, products and absolute values.
* `sub_self_of_isFinite`, `beq_self_of_isFinite`: A finite number and itself.
-/

namespace SolidModel

open Float.Model UnpackedFloat

/-- A float taken apart. -/
def parts (x : Float) : UnpackedFloat := x.toModel.unpack

/-- What is left of a result when it has been put together and is taken apart again. -/
def stored (u : UnpackedFloat) : UnpackedFloat :=
  unpack Format.binary64 (pack Format.binary64 u)

theorem parts_add (x y : Float) :
    parts (x + y) = stored (add Format.binary64 (parts x) (parts y)) :=
  rfl

theorem parts_sub (x y : Float) :
    parts (x - y) = stored (sub Format.binary64 (parts x) (parts y)) :=
  rfl

theorem parts_mul (x y : Float) :
    parts (x * y) = stored (mul Format.binary64 (parts x) (parts y)) :=
  rfl

theorem parts_abs (x : Float) : parts x.abs = stored (parts x).abs := rfl

theorem le_iff_parts {x y : Float} : x ≤ y ↔ (parts x).le (parts y) = true := by
  change decide ((parts x).le (parts y) = true) = true ↔ _
  rw [decide_eq_true_iff]

theorem lt_iff_parts {x y : Float} : x < y ↔ (parts x).lt (parts y) = true := by
  change decide ((parts x).lt (parts y) = true) = true ↔ _
  rw [decide_eq_true_iff]

theorem beq_eq_parts (x y : Float) : (x == y) = (parts x).beq (parts y) := rfl

theorem isFinite_eq_parts (x : Float) : x.isFinite = (parts x).isFinite := rfl

theorem unpackSign_packComponents (spec : Format) (s : Sign) (e : BitVec spec.exponentBits)
    (m : BitVec spec.mantissaBitsWithoutImplicit) :
    unpackSign (packComponents spec s e m) = s.toBitVec := by
  ext i hi
  have hzero : i = 0 := by omega
  simp [unpackSign, packComponents, BitVec.getLsbD_append, BitVec.getElem_append, hzero]

theorem ofBitVec_toBitVec (s : Sign) : Sign.ofBitVec s.toBitVec = s := by
  cases s <;> rfl

/-- A number that is zero, infinite or in between, with a given sign. -/
def Signed (s : Sign) : UnpackedFloat → Prop
  | .notANumber => False
  | .infinity t => t = s
  | .zero t => t = s
  | .finite t _ _ _ => t = s

/-- Components that do not stand for what is no number are a number of the given sign. -/
theorem signed_unpack_packComponents (s : Sign) {e : BitVec 11} {m : BitVec 52}
    (h : e = -1#11 → m = 0#52) :
    Signed s (unpack Format.binary64 (packComponents Format.binary64 s e m)) := by
  unfold UnpackedFloat.unpack
  simp only [unpackMantissa_packComponents, unpackExponent_packComponents,
    unpackSign_packComponents, ofBitVec_toBitVec]
  split
  · next he =>
      rw [if_pos (h he)]
      rfl
  · split
    · split <;> rfl
    · rfl

/-- To put a finite number together keeps its sign, and makes a number. -/
theorem signed_stored_finite (s : Sign) (m : Nat) (e : Int) (hm : 0 < m) :
    Signed s (stored (.finite s m e hm)) := by
  unfold stored UnpackedFloat.pack
  dsimp only
  split
  · exact signed_unpack_packComponents s fun _ => rfl
  · next hsmall =>
      split
      · refine signed_unpack_packComponents s fun he => absurd (congrArg BitVec.toNat he) ?_
        -- The exponent of a finite number is not the one of the infinities.
        have hlt : (e + 1023 + 52).toNat + 1 < 2 ^ 11 := Nat.not_le.mp hsmall
        change (e + 1023 + 52).toNat % 2 ^ 11 ≠ 2 ^ 11 - 1
        omega
      · exact signed_unpack_packComponents s fun he => absurd he (by decide)

theorem stored_notANumber : stored .notANumber = .notANumber := rfl

theorem stored_infinity (s : Sign) : stored (.infinity s) = .infinity s := by
  cases s <;> rfl

theorem stored_zero (s : Sign) : stored (.zero s) = .zero s := by
  cases s <;> rfl

/-- To put a number together keeps its sign. -/
theorem Signed.stored {s : Sign} {u : UnpackedFloat} (h : Signed s u) : Signed s (stored u) := by
  cases u with
  | notANumber => exact h.elim
  | infinity t =>
      rw [stored_infinity]
      exact h
  | zero t =>
      rw [stored_zero]
      exact h
  | finite t m e hm =>
      have ht : t = s := h
      rw [← ht]
      exact signed_stored_finite t m e hm

theorem signed_roundWithAccuracy (spec : Format) (s : Sign) (m : Nat) (e : Int)
    (accuracy : Accuracy) : Signed s (roundWithAccuracy spec s m e accuracy) := by
  unfold roundWithAccuracy
  dsimp only
  split <;> rfl

/-- A sum of mantissas that is not below zero is rounded to what is not below zero. -/
theorem signed_normalize (spec : Format) {m : Int} (hm : 0 ≤ m) (e : Int) :
    Signed .positive (UnpackedFloat.normalize spec m e .positive) := by
  unfold UnpackedFloat.normalize
  split
  · next h =>
      have hlt : m < 0 := Int.compare_eq_lt.mp h
      omega
  · rfl
  · exact signed_roundWithAccuracy spec .positive _ _ .exact

/-- Sums of numbers that are not below zero are not either. -/
theorem Signed.add {u v : UnpackedFloat} (hu : Signed .positive u) (hv : Signed .positive v)
    (spec : Format) : Signed .positive (add spec u v) := by
  cases u with
  | notANumber => exact hu.elim
  | infinity s =>
      have hs : s = .positive := hu
      cases v with
      | notANumber => exact hv.elim
      | infinity t =>
          have ht : t = .positive := hv
          rw [hs, ht]
          rfl
      | zero t => exact hs
      | finite t n f hn => exact hs
  | zero s =>
      have hs : s = .positive := hu
      cases v with
      | notANumber => exact hv.elim
      | infinity t => exact hv
      | zero t =>
          have ht : t = .positive := hv
          rw [hs, ht]
          rfl
      | finite t n f hn => exact hv
  | finite s m e hm =>
      have hs : s = .positive := hu
      cases v with
      | notANumber => exact hv.elim
      | infinity t => exact hv
      | zero t => exact hu
      | finite t n f hn =>
          have ht : t = .positive := hv
          rw [hs, ht]
          -- Neither mantissa is negative once they are brought to one exponent.
          refine signed_normalize spec ?_ _
          exact Int.add_nonneg (Int.natCast_nonneg _) (Int.natCast_nonneg _)

/-- The sign of a product with a finite number other than zero. With zero the sign could not be
    told, as the product with infinity is no number. -/
theorem Signed.mul_finite {t : Sign} {v : UnpackedFloat} (hv : Signed t v) (spec : Format)
    (s : Sign) (m : Nat) (e : Int) (hm : 0 < m) :
    Signed (s * t) (mul spec (.finite s m e hm) v) := by
  cases v with
  | notANumber => exact hv.elim
  | infinity t' => exact congrArg (s * ·) hv
  | zero t' => exact congrArg (s * ·) hv
  | finite t' n f hn =>
      have ht : t' = t := hv
      rw [← ht]
      exact signed_roundWithAccuracy spec (s * t') _ _ .exact

theorem signed_abs {u : UnpackedFloat} (h : u.isFinite = true) : Signed .positive u.abs := by
  cases u with
  | notANumber => exact absurd h Bool.false_ne_true
  | infinity s => exact absurd h Bool.false_ne_true
  | zero s => rfl
  | finite s m e hm => rfl

/-- Zero is at most whatever is not below zero. -/
theorem Signed.zero_le {u : UnpackedFloat} (h : Signed .positive u) :
    (UnpackedFloat.zero .positive).le u = true := by
  cases u with
  | notANumber => exact h.elim
  | infinity s =>
      have hs : s = .positive := h
      rw [hs]
      rfl
  | zero s => rfl
  | finite s m e hm =>
      have hs : s = .positive := h
      rw [hs]
      rfl

/-- A finite number less itself is zero. -/
theorem sub_self_of_isFinite {u : UnpackedFloat} (h : u.isFinite = true) (spec : Format) :
    sub spec u u = .zero .positive := by
  cases u with
  | notANumber => exact absurd h Bool.false_ne_true
  | infinity s => exact absurd h Bool.false_ne_true
  | zero s => cases s <;> rfl
  | finite s m e hm =>
      simp only [UnpackedFloat.sub, Int.sub_self]
      rfl

/-- A finite number equals itself, as floats compare. -/
theorem beq_self_of_isFinite {u : UnpackedFloat} (h : u.isFinite = true) : u.beq u = true := by
  cases u with
  | notANumber => exact absurd h Bool.false_ne_true
  | infinity s => exact absurd h Bool.false_ne_true
  | zero s => rfl
  | finite s m e hm =>
      have he : compare e e = .eq := Int.compare_eq_eq.mpr rfl
      have hm : compare m m = .eq := Nat.compare_eq_eq.mpr rfl
      cases s <;> simp only [UnpackedFloat.beq, UnpackedFloat.compare, he, hm] <;> rfl

end SolidModel
