import SolidModel.Connector.Basic
import SolidModel.Vec3.Normal

/-!
# Shapes

The solids everything is made of, and where they can be attached.

There are two primitives: a frustum standing on the third axis, and a sphere. A cylinder and a
cone are frustums too, and are handed on as such, but a component remembers which of the three
it was given: a cylinder is a different shape from a frustum of the same measures. So `Shape`
has the finer distinction and `Primitive` the coarser one.

Anchors are connectors in the directions of the world. Only their height differs, and a
height that is no number is reported when an anchor is asked for, not when the shape is made.

## Main definitions

* `Frustum`: The measures of a frustum.
* `Primitive`: A solid as a finished body names it.
* `Shape`: A solid as a component remembers it.
* `Shape.anchor`: The connector of a shape at an anchor.
* `Shape.primitive`: The solid of a shape.
-/

namespace SolidModel

/-- A named place of attachment. -/
inductive Anchor where
  /-- The center of the top face. -/
  | top
  /-- The center of the bottom face. -/
  | bottom
  /-- The center of the middle plane. -/
  | center
deriving DecidableEq, Repr

namespace Anchor

/-- The capitalised name, as records and JSON write it. -/
def name : Anchor → String
  | .top => "Top"
  | .bottom => "Bottom"
  | .center => "Center"

end Anchor

/-- The measures of a frustum along the third axis. -/
structure Frustum where
  /-- The diameter of the circle around the bottom face. -/
  bottomDiameter : Float
  /-- The diameter of the circle around the top face, zero for a point. -/
  topDiameter : Float
  /-- The height along the third axis. -/
  height : Float
  /-- Whether the middle lies at the origin, rather than the bottom. -/
  centered : Bool
  /-- The number of sides, or a circle. -/
  segments : Option UInt32
deriving DecidableEq

/-- A solid as a finished body names it. -/
inductive Primitive where
  | frustum (measures : Frustum)
  | sphere (diameter : Float)
deriving DecidableEq

/-- A solid as a component remembers it. -/
inductive Shape where
  | frustum (measures : Frustum)
  | cylinder (measures : Frustum)
  | cone (measures : Frustum)
  | sphere (diameter : Float)
deriving DecidableEq

namespace Frustum

/-- Equality of measures, as floats compare. -/
def same (a b : Frustum) : Bool :=
  a.bottomDiameter == b.bottomDiameter && a.topDiameter == b.topDiameter
    && a.height == b.height && a.centered == b.centered && a.segments == b.segments

/-- The height of an anchor above the origin. -/
def anchorHeight (f : Frustum) (anchor : Anchor) : Float :=
  let half := f.height / 2.0
  let middle := if f.centered then 0.0 else half
  match anchor with
  | .top => middle + half
  | .bottom => middle - half
  | .center => middle

/-- The connector of a frustum at an anchor. -/
def anchor (f : Frustum) (anchor : Anchor) : Except Degeneracy Connector := do
  let point ← (Vec3.mk 0.0 0.0 (f.anchorHeight anchor)).checked
  pure { Connector.world with point }

end Frustum

namespace Primitive

/-- Equality of primitives, as floats compare. -/
def same : Primitive → Primitive → Bool
  | .frustum a, .frustum b => a.same b
  | .sphere a, .sphere b => a == b
  | _, _ => false

end Primitive

namespace Shape

/-- A frustum whose top is as wide as its bottom unless it is given. -/
def ofFrustum (bottomDiameter height : Float) (topDiameter : Option Float) (centered : Bool)
    (segments : Option UInt32) : Shape :=
  .frustum ⟨bottomDiameter, topDiameter.getD bottomDiameter, height, centered, segments⟩

/-- A frustum with circular faces. -/
def ofCircularFrustum (bottomDiameter height : Float) (topDiameter : Option Float)
    (centered : Bool) : Shape :=
  ofFrustum bottomDiameter height topDiameter centered none

/-- A circular frustum of one diameter. -/
def ofCylinder (diameter height : Float) (centered : Bool) : Shape :=
  .cylinder ⟨diameter, diameter, height, centered, none⟩

/-- A circular frustum that ends in a point. -/
def ofCone (bottomDiameter height : Float) (centered : Bool) : Shape :=
  .cone ⟨bottomDiameter, 0.0, height, centered, none⟩

/-- The radius of a sphere with the given diameter. -/
def sphereRadius (diameter : Float) : Float := diameter / 2.0

/-- Equality of shapes: of one kind, with the same measures. -/
def same : Shape → Shape → Bool
  | .frustum a, .frustum b => a.same b
  | .cylinder a, .cylinder b => a.same b
  | .cone a, .cone b => a.same b
  | .sphere a, .sphere b => a == b
  | _, _ => false

/-- The connector of a shape at an anchor, if the shape has that anchor. A sphere has its
    center alone. -/
def anchor (shape : Shape) (anchor : Anchor) : Except Degeneracy (Option Connector) :=
  match shape with
  | .frustum f | .cylinder f | .cone f => (f.anchor anchor).map some
  | .sphere _ =>
    match anchor with
    | .center => .ok (some .world)
    | _ => .ok none

/-- The solid of a shape. -/
def primitive : Shape → Primitive
  | .frustum f | .cylinder f | .cone f => .frustum f
  | .sphere diameter => .sphere diameter

end Shape

end SolidModel
