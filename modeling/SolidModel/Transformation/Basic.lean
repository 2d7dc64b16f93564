import SolidModel.Vec3.Normal

/-!
# Transformations

The three ways to move something: by an offset, about the origin, or by a factor per axis.

A rotation is given by one angle about a pole, or by three successive angles about the world
axes. Either part may be missing. A missing pole has a meaning, the third world axis; a missing
angle has none, and such a rotation is kept as it is and refused where it is applied. That is
why `Rotation` is not a type of well-formed rotations: a history records what it was given.

One type serves the history of a component and the wrappers of a finished body alike. The two
compare it differently. In a history, vectors are equal when they are close; in a body they are
equal when their components are. Angles compare exactly in both.

## Main definitions

* `Angle`, `Rotation`, `Transformation`: The data of a movement.
* `Transformation.up` and its five siblings: Movements along the world axes.
* `Transformation.isClose`, `Transformation.same`: The two comparisons.
* `Transformation.record`: The record form.
-/

namespace SolidModel

/-- The angle of a rotation, in degrees. -/
inductive Angle where
  /-- One angle about the pole. -/
  | single (degrees : Float)
  /-- Successive angles about the first, second and third world axis. -/
  | euler (degrees : Vec3)
deriving DecidableEq

/-- A rotation about the origin. -/
structure Rotation where
  /-- How far it turns, in one of two forms. Without an angle nothing can be turned by it. -/
  angle : Option Angle
  /-- What it turns about. Without a pole a single angle turns about the third axis. -/
  pole : Option Vec3
deriving DecidableEq

/-- A single movement. -/
inductive Transformation where
  | translate (offset : Vec3)
  | rotate (rotation : Rotation)
  | scale (factor : Vec3)
deriving DecidableEq

namespace Angle

/-- Equality of angles, as floats compare. -/
def same : Angle → Angle → Bool
  | .single a, .single b => a == b
  | .euler a, .euler b => a.same b
  | _, _ => false

/-- The record form. -/
def record : Angle → String
  | .single a => "Single(" ++ Layout.record.text a ++ ")"
  | .euler v => "Euler(" ++ v.bracketed .record ++ ")"

end Angle

/-- Equality of optional values, under an equality of values. -/
def sameOption {α : Type} (same : α → α → Bool) : Option α → Option α → Bool
  | none, none => true
  | some a, some b => same a b
  | _, _ => false

namespace Rotation

/-- Equality with the given comparison of poles. -/
def sameUnder (sameVec : Vec3 → Vec3 → Bool) (a b : Rotation) : Bool :=
  sameOption Angle.same a.angle b.angle && sameOption sameVec a.pole b.pole

/-- The record form. -/
def record (r : Rotation) : String :=
  "Rotation \x7b angle: " ++ optionRecord Angle.record r.angle
    ++ ", pole: " ++ optionRecord Vec3.record r.pole ++ " \x7d"

end Rotation

namespace Transformation

/-- The rotation by an angle about a pole. -/
def rotateAbout (degrees : Float) (pole : Vec3) : Transformation :=
  .rotate ⟨some (.single degrees), some pole⟩

/-- The rotation by an angle about the third world axis. -/
def rotateZ (degrees : Float) : Transformation := .rotate ⟨some (.single degrees), none⟩

/-- The successive rotations by three angles about the world axes. -/
def rotateEuler (degrees : Vec3) : Transformation := .rotate ⟨some (.euler degrees), none⟩

/-- The offset by a distance along an axis. -/
def along (axis : Vec3) (distance : Float) : Except Degeneracy Transformation :=
  (axis.scaled distance).map .translate

/-- The offset by a distance along the third axis. -/
def up (distance : Float) : Except Degeneracy Transformation := along .axisZ distance

/-- The offset by a distance against the third axis. -/
def down (distance : Float) : Except Degeneracy Transformation := along .axisZ (-distance)

/-- The offset by a distance along the first axis. -/
def right (distance : Float) : Except Degeneracy Transformation := along .axisX distance

/-- The offset by a distance against the first axis. -/
def left (distance : Float) : Except Degeneracy Transformation := along .axisX (-distance)

/-- The offset by a distance along the second axis. -/
def forward (distance : Float) : Except Degeneracy Transformation := along .axisY distance

/-- The offset by a distance against the second axis. -/
def back (distance : Float) : Except Degeneracy Transformation := along .axisY (-distance)

/-- Equality with the given comparison of vectors. -/
def sameUnder (sameVec : Vec3 → Vec3 → Bool) : Transformation → Transformation → Bool
  | .translate a, .translate b => sameVec a b
  | .rotate a, .rotate b => a.sameUnder sameVec b
  | .scale a, .scale b => sameVec a b
  | _, _ => false

/-- Equality of recorded movements: vectors are equal when they are close. -/
def isClose (a b : Transformation) : Bool := sameUnder Vec3.isClose a b

/-- Equality of wrappers: vectors are equal when their components are. -/
def same (a b : Transformation) : Bool := sameUnder Vec3.same a b

/-- Equality of lists of recorded movements, in order and in number. -/
def isCloseList : List Transformation → List Transformation → Bool
  | [], [] => true
  | a :: as, b :: bs => a.isClose b && isCloseList as bs
  | _, _ => false

/-- The record form. -/
def record : Transformation → String
  | .translate offset => "Translate \x7b offset: " ++ offset.record ++ " \x7d"
  | .rotate rotation => "Rotate(" ++ rotation.record ++ ")"
  | .scale factor => "Scale \x7b factor: " ++ factor.record ++ " \x7d"

end Transformation

end SolidModel
