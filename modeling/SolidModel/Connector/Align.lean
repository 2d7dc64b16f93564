import SolidModel.Connector.Motion
import SolidModel.Vec3.Alignment

/-!
# Aligning Connectors

The steps that carry one connector onto another.

There are up to three: a rotation brings the axes together, a second one the normals, and an
offset the points. A step is left out where the vectors it would bring together are close
already, as they are measured on a working copy that has taken the steps before it. So the
second rotation is chosen from the normal as the first rotation leaves it, and the offset from
the point as both leave it.

The second rotation has one trap. When the axes agree, the normals differ by a turn about the
axis, and the turn is found from their own normal. Opposite normals have none. Any
perpendicular would turn one onto the other, but only the axis does so without undoing the
first step, so there the axis is taken by name.

## Main definitions

* `Connector.axisStep?`, `Connector.rollStep?`, `Connector.offsetStep?`: One stage each, or
  nothing where it is not needed.
* `Connector.align`: The steps, with an event for each.
* `Connector.ofAxis`: The connector with a given point, axis and roll.
* `Connector.roll`: The roll of a connector.
-/

namespace SolidModel

variable [Trigonometry]

namespace Connector

/-- The rotation that undoes the turn from the second vector onto the first. -/
def turnOnto (vector target : Vec3) : Logged Degeneracy Transformation := do
  let (angle, pole) ← Vec3.alignmentRotation vector target
  pure (.rotateAbout (-angle) pole)

/-- The rotation that brings the axes together, if they are apart. -/
def axisStep? (working target : Connector) : Logged Degeneracy (Option Transformation) :=
  if working.axis.isClose target.axis then pure none
  else some <$> turnOnto working.axis target.axis

/-- The rotation that brings the normals together, if they are apart. Opposite normals turn
    about the axis. -/
def rollStep? (working target : Connector) : Logged Degeneracy (Option Transformation) :=
  if working.normal.isClose target.normal then pure none
  else
    match working.normal.normal target.normal with
    | .error (.antiparallel ..) => pure (some (.rotateAbout 180.0 target.axis))
    | _ => some <$> turnOnto working.normal target.normal

/-- The offset that brings the points together, if they are apart. -/
def offsetStep? (working target : Connector) : Except Degeneracy (Option Transformation) :=
  if working.point.isClose target.point then .ok none
  else (target.point - working.point).checked.map fun offset => some (.translate offset)

/-- Tell of a step, if there is one. -/
def tellStep (source : Connector) (stage : AlignStage) :
    Option Transformation → Logged PlacementError Unit
  | none => pure ()
  | some step => Logged.note (.alignStep source stage step)

/-- Tell of a rotation step, if there is one, and take it on the working copy. -/
def takeStep (source working : Connector) (stage : AlignStage) (step? : Option Transformation) :
    Logged PlacementError Connector := do
  tellStep source stage step?
  Logged.ofExcept (working.moveAll step?.toList)

/-- The steps that carry the connector onto the target, in the order of their application. The
    target is the world unless it is given. -/
def align (c : Connector) (target : Connector := .world) :
    Logged PlacementError (List Transformation) := do
  let axisStep ← (axisStep? c target).mapError .degenerate
  let working ← takeStep c c .axis axisStep
  let rollStep ← (rollStep? working target).mapError .degenerate
  let working ← takeStep c working .roll rollStep
  let offsetStep ← Logged.ofExcept ((offsetStep? working target).mapError .degenerate)
  tellStep c .offset offsetStep
  pure (axisStep.toList ++ rollStep.toList ++ offsetStep.toList)

/-- The connector at a point, with an axis of any length and a roll in degrees. Its normal is
    the first world axis, rolled about the third and then carried along as the third is turned
    onto the axis. -/
def ofAxis (point axis : Vec3) (roll : Float) : Logged Degeneracy Connector := do
  let axis ← Logged.ofExcept (axis.checked.bind Vec3.normalized)
  let rolled ← Logged.ofExcept (Vec3.axisX.rotate roll .axisZ)
  let normal ← rolled.rotateToAlignment .axisZ axis
  let point ← Logged.ofExcept point.checked
  pure ⟨point, axis, normal⟩

/-- The turn from the first world axis to the normal, once the axis is carried onto the
    third. -/
def roll (c : Connector) : Logged Degeneracy Float := do
  let normal ← c.normal.rotateToAlignment c.axis .axisZ
  Logged.ofExcept (Vec3.axisX.angleBetween normal (some .axisZ))

end Connector

end SolidModel
