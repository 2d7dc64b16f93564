import SolidModel.Vec3.Text

/-!
# Connectors

Oriented attachment points.

A point alone says where two parts meet, but not how they are turned against each other. A
connector adds two directions: the axis, along which parts are brought together, and the
normal, which fixes the turn about it. Nothing forces the directions to be of length one or
perpendicular; a connector holds what it was given, and alignment is meant for connectors that
are.

## Main definitions

* `Connector`: A point with an axis and a normal.
* `Connector.world`: The connector of the world itself.
* `Connector.isClose`: Approximate equality.
* `Connector.Valid`: All three vectors have lengths that are numbers.
* `Connector.display`: The rounded form.
-/

namespace SolidModel

/-- An oriented attachment point. -/
structure Connector where
  /-- Where it is. -/
  point : Vec3
  /-- The direction along which parts are brought together. -/
  axis : Vec3
  /-- The direction that fixes the turn about the axis. -/
  normal : Vec3
deriving DecidableEq

namespace Connector

/-- The connector of the world: the origin, the third axis, and the first axis as normal. -/
def world : Connector := ⟨.origin, .axisZ, .axisX⟩

/-- Whether all three vectors are close to those of the other. -/
def isClose (a b : Connector) : Bool :=
  a.point.isClose b.point && a.axis.isClose b.axis && a.normal.isClose b.normal

/-- The lengths of all three vectors are numbers. -/
def Valid (c : Connector) : Prop := c.point.Valid ∧ c.axis.Valid ∧ c.normal.Valid

/-- The rounded form for a reader. -/
def display (c : Connector) : String :=
  "\x7b" ++ c.point.display ++ "; " ++ c.axis.display ++ "; " ++ c.normal.display ++ "\x7d"

end Connector

end SolidModel
