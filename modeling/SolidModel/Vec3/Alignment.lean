import SolidModel.Logged
import SolidModel.Vec3.Rotation

/-!
# Aligning Vectors

The turn that carries one direction onto another.

Two directions span a plane, and the turn is about its normal. Two directions on one line span
none, and then any perpendicular of that line will do as an axis. It should still be one that
suits the caller, so the normal with a third vector is tried first, and only when that lies on
the line as well is an arbitrary one taken. Both retreats are told as events.

## Main definitions

* `Vec3.alignmentAxis`: The axis about which one vector turns onto another.
* `Vec3.alignmentRotation`: Angle and axis of that turn.
* `Vec3.rotateToAlignment`: A vector carried along with it.
-/

namespace SolidModel

variable [Trigonometry]

namespace Vec3

/-- The axis about which `inclined` turns onto `reference`, with `fallback` to choose one when
    the two lie on one line. -/
def alignmentAxis (fallback inclined reference : Vec3) : Logged Degeneracy Vec3 :=
  match inclined.normal reference with
  | .ok axis => pure axis
  | .error e =>
    if e.isColinear then do
      Logged.note (.colinear inclined reference fallback)
      match fallback.normal reference with
      | .ok axis => pure axis
      | .error e =>
        if e.isColinear then do
          Logged.note (.fallbackColinear fallback)
          Logged.ofExcept fallback.arbitraryNormal
        else Logged.ofExcept (.error e)
    else Logged.ofExcept (.error e)

/-- The angle and the axis of the turn that carries `inclined` onto `reference`, or onto the
    fallback itself if nothing else is given. -/
def alignmentRotation (fallback inclined : Vec3) (reference : Vec3 := fallback) :
    Logged Degeneracy (Float × Vec3) := do
  let axis ← alignmentAxis fallback inclined reference
  let angle ← Logged.ofExcept (inclined.angleBetween reference (some axis))
  pure (angle, axis)

/-- The vector turned as `inclined` is to be turned to lie along `reference`. -/
def rotateToAlignment (v inclined reference : Vec3) : Logged Degeneracy Vec3 := do
  let (angle, axis) ← alignmentRotation v inclined reference
  Logged.ofExcept (v.rotate angle axis)

end Vec3

end SolidModel
