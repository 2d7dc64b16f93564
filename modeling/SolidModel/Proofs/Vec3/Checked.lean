import SolidModel.Proofs.Vec3.Failures

/-!
# Checked Vectors

Which operations hand out only vectors whose length is a number.

The length of a vector is looked at once, by `Vec3.checked`, where the vector has just been made.
What passes this check is handed on as it is, so whoever receives a vector from a checked operation
need not look again. There is nothing that has to be known of what a vector was made from. Angles
may be infinite, and poles may be no numbers themselves: that shows in the vector that is made, and
there it is found.

The search for an axis is no exception. It may end with any of three attempts, but each attempt ends
with a check.

## Main definitions

* `Except.Delivers`: A result that is there is what it has to be.
* `Degeneracy.Undefined`: A vector has failed the check.

## Theorems

* `Vec3.checked_eq_ok_iff`: What passes the check, and what comes out of it.
* `Vec3.checked_failsOnly_undefined`: What does not pass it is told of.
* `Vec3.normal_delivers`, `Vec3.arbitraryNormal_delivers`, `Vec3.alignmentAxis_delivers`: Axes are
  checked.
* `Vec3.rotate_delivers`, `Vec3.rotateToAlignment_delivers`: So is what is turned.
-/

namespace SolidModel

namespace Except

variable {ε ε' α β : Type} {p : α → Prop} {q : β → Prop} {x : Except ε α}

/-- A result that is there is what it has to be. Nothing is said about when it is there. -/
def Delivers (p : α → Prop) (x : Except ε α) : Prop := ∀ a, x = .ok a → p a

namespace Delivers

theorem ok {a : α} (ha : p a) : Delivers p (.ok a : Except ε α) := by
  intro a' h
  cases h
  exact ha

theorem error (p : α → Prop) (e : ε) : Delivers p (.error e : Except ε α) := by
  intro a h
  cases h

/-- The second result has what the first one has delivered to start from. -/
theorem bind {f : α → Except ε β} (hx : Delivers p x) (hf : ∀ a, p a → Delivers q (f a)) :
    Delivers q (x >>= f) := by
  intro b h
  rcases bind_eq_ok_iff.mp h with ⟨a, ha, hb⟩
  exact hf a (hx a ha) b hb

/-- After a result of which nothing is known, it is up to what follows. -/
theorem bind_any {f : α → Except ε β} (hf : ∀ a, Delivers q (f a)) : Delivers q (x >>= f) := by
  have hx : Delivers (fun _ => True) x := fun _ _ => trivial
  exact hx.bind fun a _ => hf a

theorem mapError (hx : Delivers p x) (f : ε → ε') : Delivers p (x.mapError f) := by
  intro a h
  exact hx a (mapError_eq_ok_iff.mp h)

theorem map {f : α → β} (hx : Delivers p x) (hf : ∀ a, p a → q (f a)) :
    Delivers q (x.map f) := by
  intro b h
  cases x with
  | error e => cases h
  | ok a =>
      cases h
      exact hf a (hx a rfl)

end Delivers

end Except

/-- A vector has failed the check, and it is the one that is told of. -/
inductive Degeneracy.Undefined : Degeneracy → Prop
  | of_not_valid {v : Vec3} (h : ¬ v.Valid) : Undefined (.undefinedMagnitude v)

namespace Vec3

theorem not_valid_iff {v : Vec3} : ¬ v.Valid ↔ v.magnitude.isNaN = true := by
  rw [Valid, Bool.not_eq_false]

/-- A vector passes the check if its length is a number, and comes out of it as it was. -/
theorem checked_eq_ok_iff {v w : Vec3} : v.checked = .ok w ↔ v.Valid ∧ w = v := by
  unfold checked
  by_cases hvalid : v.Valid
  · have hnumber : v.magnitude.isNaN = false := hvalid
    simp only [hnumber, Bool.false_eq_true, if_false, Except.ok.injEq, hvalid, true_and, eq_comm]
  · simp only [not_valid_iff.mp hvalid, if_true, reduceCtorEq, hvalid, false_and]

theorem checked_delivers (v : Vec3) : Except.Delivers Valid v.checked := by
  intro w h
  rcases checked_eq_ok_iff.mp h with ⟨hvalid, rfl⟩
  exact hvalid

/-- The check fails for nothing else. -/
theorem checked_failsOnly_undefined (v : Vec3) :
    Except.FailsOnly Degeneracy.Undefined v.checked := by
  by_cases hvalid : v.Valid
  · rw [checked_eq_ok_iff.mpr ⟨hvalid, rfl⟩]
    exact Except.FailsOnly.ok _ v
  · rw [checked, if_pos (not_valid_iff.mp hvalid)]
    exact Except.FailsOnly.error (.of_not_valid hvalid)

theorem normalized_delivers (v : Vec3) : Except.Delivers Valid v.normalized := checked_delivers _

theorem normalized_failsOnly_undefined (v : Vec3) :
    Except.FailsOnly Degeneracy.Undefined v.normalized := checked_failsOnly_undefined _

theorem normal_delivers (a b : Vec3) : Except.Delivers Valid (a.normal b) := by
  unfold normal
  split
  · exact Except.Delivers.error _ _
  · dsimp only
    split
    · exact Except.Delivers.error _ _
    · exact checked_delivers _

theorem normalAmong_delivers (v : Vec3) (axes : List Vec3) :
    Except.Delivers Valid (v.normalAmong axes) := by
  induction axes with
  | nil => exact Except.Delivers.error _ _
  | cons axis rest ih =>
      unfold normalAmong
      split
      · next n hnormal => exact Except.Delivers.ok (normal_delivers v axis n hnormal)
      · split
        · exact ih
        · exact Except.Delivers.error _ _

theorem arbitraryNormal_delivers (v : Vec3) : Except.Delivers Valid v.arbitraryNormal :=
  v.normalAmong_delivers [axisX, axisY, axisZ]

/-- Whichever of the three attempts it is that finds an axis, it has checked the axis. What has been
    given as a fallback need not be checked, since only its normal is ever used. -/
theorem alignmentAxis_delivers (fallback inclined reference : Vec3) :
    Except.Delivers Valid (alignmentAxis fallback inclined reference).result := by
  rcases alignmentAxis_cases fallback inclined reference with ⟨h, _⟩ | ⟨h, _⟩ | h
  · rw [h]
    exact normal_delivers inclined reference
  · rw [h]
    exact normal_delivers fallback reference
  · rw [h]
    exact arbitraryNormal_delivers fallback

variable [Trigonometry]

/-- The pole of a turn is checked. Nothing is said of the angle, which may be no number. -/
theorem alignmentRotation_delivers (fallback inclined reference : Vec3) :
    Except.Delivers (fun turn => turn.2.Valid)
      (alignmentRotation fallback inclined reference).result := by
  unfold alignmentRotation
  rw [Logged.bind_result]
  refine (alignmentAxis_delivers fallback inclined reference).bind fun axis haxis => ?_
  rw [Logged.bind_result]
  exact Except.Delivers.bind_any fun angle => Except.Delivers.ok haxis

theorem rotate_delivers (v : Vec3) (angle : Float) (pole : Vec3) :
    Except.Delivers Valid (v.rotate angle pole) := checked_delivers _

theorem rotate_failsOnly_undefined (v : Vec3) (angle : Float) (pole : Vec3) :
    Except.FailsOnly Degeneracy.Undefined (v.rotate angle pole) := checked_failsOnly_undefined _

theorem rotateToAlignment_delivers (v inclined reference : Vec3) :
    Except.Delivers Valid (v.rotateToAlignment inclined reference).result := by
  unfold rotateToAlignment
  rw [Logged.bind_result]
  exact Except.Delivers.bind_any fun turn => rotate_delivers v turn.1 turn.2

end Vec3

end SolidModel
