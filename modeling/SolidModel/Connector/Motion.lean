import SolidModel.Connector.Basic
import SolidModel.Transformation.Basic
import SolidModel.Vec3.Rotation

/-!
# Moving Connectors

What a transformation does to a connector.

An offset and a factor per axis concern the point alone. A rotation turns all three vectors
about the origin, first the point and then the directions, so that an undefined length is
reported for the first of them in that order. The pole of a rotation need not have length one;
it is brought to it here, and a null pole is refused on the way.

Every vector that changes is checked, so a connector with defined lengths keeps them or the
movement fails.

## Main definitions

* `PlacementError`: Why a transformation cannot be applied.
* `Connector.rotateAbout`: All three vectors turned about a pole of length one.
* `Connector.move`: A connector under one transformation.
* `Connector.moveAll`: A connector under a list of them.
-/

namespace SolidModel

/-- Why a transformation cannot be applied. -/
inductive PlacementError where
  /-- A rotation has no angle. -/
  | missingAngle (pole : Option Vec3)
  /-- A vector on the way is degenerate. -/
  | degenerate (cause : Degeneracy)
deriving DecidableEq

namespace PlacementError

/-- The wording of the report. -/
def message : PlacementError → String
  | .missingAngle pole => "rotation needs an angle (pole: " ++ optionRecord Vec3.record pole ++ ")"
  | .degenerate cause => cause.message

end PlacementError

variable [Trigonometry]

namespace Connector

/-- All three vectors turned by an angle about a pole of length one. -/
def rotateAbout (c : Connector) (degrees : Float) (pole : Vec3) : Except Degeneracy Connector := do
  let point ← c.point.rotate degrees pole
  let axis ← c.axis.rotate degrees pole
  let normal ← c.normal.rotate degrees pole
  pure ⟨point, axis, normal⟩

/-- The connector turned by successive angles about the world axes. -/
def rotateEuler (c : Connector) (degrees : Vec3) : Except Degeneracy Connector := do
  let c ← c.rotateAbout degrees.x .axisX
  let c ← c.rotateAbout degrees.y .axisY
  c.rotateAbout degrees.z .axisZ

/-- The connector with its point replaced by a checked one. -/
def withPoint (c : Connector) (point : Vec3) : Except Degeneracy Connector := do
  let point ← point.checked
  pure { c with point }

/-- The connector under a rotation. Euler angles leave the pole unused, and a single angle
    without a pole is about the third axis. -/
def rotate (c : Connector) (rotation : Rotation) : Except PlacementError Connector :=
  match rotation.angle, rotation.pole with
  | none, pole => .error (.missingAngle pole)
  | some (.euler degrees), _ => (c.rotateEuler degrees).mapError .degenerate
  | some (.single degrees), none => (c.rotateAbout degrees .axisZ).mapError .degenerate
  | some (.single degrees), some pole =>
    (pole.normalized.bind (c.rotateAbout degrees)).mapError .degenerate

/-- The connector under one transformation. -/
def move (c : Connector) : Transformation → Except PlacementError Connector
  | .translate offset => (c.withPoint (c.point + offset)).mapError .degenerate
  | .rotate rotation => c.rotate rotation
  | .scale factor => (c.withPoint (c.point * factor)).mapError .degenerate

/-- The connector under transformations, the first applied first. -/
def moveAll (c : Connector) : List Transformation → Except PlacementError Connector
  | [] => .ok c
  | step :: rest => (c.move step).bind fun moved => moved.moveAll rest

end Connector

end SolidModel
