import SolidModel.Proofs.Finite
import SolidModel.Proofs.Float.Root
import SolidModel.Vec3.Normal

/-!
# Lengths That Are Numbers

When the length of a vector is a number.

A length is the root of a sum of squares. A square is never negative, whatever it is the square
of, as long as that is a number at all: squares may run out of range, and the length is infinite
then, but nothing goes wrong that could not be said with a number. So the check that vectors are
put to can only fail for vectors that have been made of what is no number.

## Theorems

* `Vec3.valid_of_isNaN`: The length is a number if the components are.
* `Vec3.Finite.checked`: In particular, vectors of finite components pass the check.
-/

namespace SolidModel

open Float.Model UnpackedFloat

theorem isNaN_eq_parts (x : Float) : x.isNaN = (parts x).isNaN := rfl

theorem sign_mul_self (s : Sign) : s * s = .positive := by
  cases s <;> rfl

/-- A square is not below zero. -/
theorem signed_mul_self {u : UnpackedFloat} (h : u.isNaN = false) :
    Signed .positive (UnpackedFloat.mul Format.binary64 u u) := by
  cases u with
  | notANumber => exact absurd h.symm Bool.false_ne_true
  | infinity s => exact sign_mul_self s
  | zero s => exact sign_mul_self s
  | finite s m e hm =>
      have h := Signed.mul_finite (v := .finite s m e hm) rfl Format.binary64 s m e hm
      rwa [sign_mul_self] at h

/-- The root of what is not below zero is not below zero either. -/
theorem Signed.sqrt {u : UnpackedFloat} (h : Signed .positive u) :
    Signed .positive (UnpackedFloat.sqrt Format.binary64 u) := by
  cases u with
  | notANumber => exact h.elim
  | zero s => exact h
  | infinity s =>
      have hs : s = .positive := h
      rw [hs]
      rfl
  | finite s m e hm =>
      have hs : s = .positive := h
      rw [hs]
      exact signed_roundWithAccuracy Format.binary64 .positive _ _ _

theorem Signed.isNaN {s : Sign} {u : UnpackedFloat} (h : Signed s u) : u.isNaN = false := by
  cases u with
  | notANumber => exact h.elim
  | infinity t => rfl
  | zero t => rfl
  | finite t m e hm => rfl

namespace Vec3

/-- The length of a vector is a number if its components are. -/
theorem valid_of_isNaN {v : Vec3} (hx : v.x.isNaN = false) (hy : v.y.isNaN = false)
    (hz : v.z.isNaN = false) : v.Valid := by
  have hsquare (t : Float) (ht : t.isNaN = false) : Signed .positive (parts (t * t)) := by
    rw [parts_mul]
    exact (signed_mul_self ht).stored
  have hdot : Signed .positive (parts (v.dot v)) := by
    rw [dot, parts_add, parts_add]
    exact (((hsquare _ hx).add (hsquare _ hy) _).stored.add (hsquare _ hz) _).stored
  have hlength : Signed .positive (parts v.magnitude) := by
    rw [magnitude, parts_sqrt]
    exact hdot.sqrt.stored
  exact hlength.isNaN

theorem isNaN_of_isFinite {x : Float} (h : x.isFinite = true) : x.isNaN = false := by
  rw [isFinite_eq_parts] at h
  rw [isNaN_eq_parts]
  cases hparts : parts x <;> rw [hparts] at h <;> first | rfl | exact absurd h Bool.false_ne_true

/-- A vector that passes the check is not changed by it. -/
theorem eq_of_checked {v w : Vec3} (h : v.checked = .ok w) : w = v := by
  rw [Vec3.checked] at h
  split at h
  · cases h
  · cases h
    rfl

namespace Finite

variable {v : Vec3}

theorem valid (h : v.Finite) : v.Valid :=
  valid_of_isNaN (isNaN_of_isFinite h.1) (isNaN_of_isFinite h.2.1) (isNaN_of_isFinite h.2.2)

/-- Vectors of finite components pass the check. -/
theorem checked (h : v.Finite) : v.checked = .ok v := by
  have hvalid : v.magnitude.isNaN = false := h.valid
  rw [Vec3.checked, hvalid, if_neg Bool.false_ne_true]

end Finite

end Vec3

end SolidModel
