import SolidModel.Proofs.Body.Matches

/-!
# What a Form With Null Carries

A body as it is once every absence and every null are the same.

JSON has no form for a float that is not finite. Such a float is written as null, and in almost all
places null is refused where a number is read. There is one exception. An angle is the only part of
a body that may be a bare number and may be absent too, and absence is null as well. So an angle
that is a single number and not finite is lost. `Body.carried` takes such angles away and leaves the
rest as it is: an Euler angle is written as a record or as a list whatever its numbers are, and so
is a pole.

## Main definitions

* `Angle.isWritten`: An angle that is written as something else than null.
* `Rotation.carried`, `Transformation.carried`, `Body.carried`: A movement and a body without the
  angles that are not.

## Theorems

* `Body.carried_eq_of_matches`: What matches a body with and without its lost angles shows that it
  has none.
-/

namespace SolidModel

/-- Whether an angle is written as something else than null. -/
def Angle.isWritten : Angle → Bool
  | .single degrees => degrees.isFinite
  | .euler _ => true

/-- A rotation without its angle if that is written as null. Only a single angle can be, when it is
    infinite or no number: one about three axes is written as a list or a record. -/
def Rotation.carried (r : Rotation) : Rotation := ⟨r.angle.filter Angle.isWritten, r.pole⟩

theorem Rotation.carried_single {degrees : Float} (h : degrees.isFinite = false)
    (pole : Option Vec3) : carried ⟨some (.single degrees), pole⟩ = ⟨none, pole⟩ := by
  rw [carried, Option.filter_some_neg (by simp [Angle.isWritten, h])]

/-- A transformation without its angle if that is written as null. -/
def Transformation.carried : Transformation → Transformation
  | .translate offset => .translate offset
  | .rotate rotation => .rotate rotation.carried
  | .scale factor => .scale factor

namespace Body

mutual

/-- A body without the angles that are written as null. This is what a text carries of a body, apart
    from what becomes of each number. -/
def carried : Body → Body
  | .primitive solid => .primitive solid
  | .composition operator operands => .composition operator (carriedAll operands)
  | .moved step child => .moved step.carried (carried child)
  | .colored color child => .colored color (carried child)

/-- Several bodies without the angles that are written as null. -/
def carriedAll : List Body → List Body
  | [] => []
  | body :: rest => carried body :: carriedAll rest

end

end Body

/-! ## Nothing lost -/

variable {p : Float → Float → Prop}

/-- An angle that is lost shows in that one of the two has an angle. So what matches both a rotation
    and what is carried of it shows that nothing of the rotation is lost. -/
theorem Rotation.carried_eq_of_matches {r s : Rotation} (hcarried : r.carried.Matches p s)
    (h : r.Matches p s) : r.carried = r := by
  rcases r with ⟨_ | a, pole⟩
  · rfl
  · cases hwritten : a.isWritten with
    | true => rw [carried, Option.filter_some_pos hwritten]
    | false =>
        rcases s with ⟨angle, pole'⟩
        rw [carried, Option.filter_some_neg (by simp [hwritten])] at hcarried
        cases hcarried.1
        exact nomatch h.1

theorem Transformation.carried_eq_of_matches {t u : Transformation}
    (hcarried : t.carried.Matches p u) (h : t.Matches p u) : t.carried = t := by
  cases t with
  | rotate r =>
      cases u with
      | rotate s => exact congrArg rotate (Rotation.carried_eq_of_matches hcarried h)
      | _ => exact h.elim
  | _ => rfl

namespace Body

mutual

theorem carried_eq_of_matches (body : Body) {other : Body}
    (hcarried : body.carried.Matches p other) (h : body.Matches p other) :
    body.carried = body := by
  cases body with
  | primitive solid => rfl
  | composition operator operands =>
      cases other with
      | composition _ _ =>
          rw [carried, carriedAll_eq_of_allMatch operands hcarried.2 h.2]
      | _ => exact h.elim
  | moved step child =>
      cases other with
      | moved _ _ =>
          rw [carried, Transformation.carried_eq_of_matches hcarried.1 h.1,
            carried_eq_of_matches child hcarried.2 h.2]
      | _ => exact h.elim
  | colored color child =>
      cases other with
      | colored _ _ => rw [carried, carried_eq_of_matches child hcarried.2 h.2]
      | _ => exact h.elim

theorem carriedAll_eq_of_allMatch (bodies : List Body) {others : List Body}
    (hcarried : AllMatch p (carriedAll bodies) others) (h : AllMatch p bodies others) :
    carriedAll bodies = bodies := by
  cases bodies with
  | nil => rfl
  | cons body rest =>
      cases others with
      | nil => exact h.elim
      | cons _ _ =>
          rw [carriedAll, carried_eq_of_matches body hcarried.1 h.1,
            carriedAll_eq_of_allMatch rest hcarried.2 h.2]

end

end Body

end SolidModel
