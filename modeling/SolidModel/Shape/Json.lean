import SolidModel.Json.Decode
import SolidModel.Json.Reader
import SolidModel.Shape

/-!
# JSON of Shapes

Shapes, primitives and anchors.

The measures of a frustum have the same five fields wherever they occur. A primitive spreads
them out beside the name of its kind. A shape is an object with its kind as the only key and
the measures as the value, and there the measures are a record of their own, which may be
written as a list too.

## Main definitions

* `Anchor.toJson`, `Anchor.ofJson?`, `Anchor.ofText?`: An anchor.
* `Frustum.toJson`, `Frustum.ofJson?`, `Frustum.ofText?`: The measures of a frustum.
* `Primitive.toJson`, `Primitive.ofJson?`, `Primitive.ofText?`: A primitive.
* `Shape.toJson`, `Shape.ofJson?`, `Shape.ofText?`: A shape.
-/

namespace SolidModel

namespace Anchor

/-- All anchors under their names. -/
def kinds : List (String × Anchor) := [top, bottom, center].map fun a => (a.name, a)

/-- An anchor: its name. -/
def toJson (anchor : Anchor) : Json := .string anchor.name

/-- The anchor that a value is. -/
def ofJson? (place : Json.Place) (json : Json) : Option Anchor := Json.choice? place kinds json

/-- The anchor that a text says. -/
def ofText? (text : String) : Option Anchor := (Json.skim? text).bind (ofJson? .alone)

end Anchor

namespace Frustum

/-- The fields of the measures in order. -/
def toFields (f : Frustum) : List (String × Json) :=
  [("bottom_diameter", .number f.bottomDiameter), ("top_diameter", .number f.topDiameter),
    ("height", .number f.height), ("center", .bool f.centered),
    ("segments", Json.ofOption (fun n => .natural n.toNat) f.segments)]

/-- The names of the fields in order. -/
def fieldNames : List String := ["bottom_diameter", "top_diameter", "height", "center", "segments"]

/-- A number of sides. -/
def segments? (json : Json) : Option UInt32 :=
  (json.naturalBelow? UInt32.size).map UInt32.ofNat

/-- The measures of five fields, of which the last one may be absent. -/
def ofFields? : List (Option Json) → Option Frustum
  | [bottom, top, height, centered, segments] => do
    pure ⟨← (← bottom).float?, ← (← top).float?, ← (← height).float?, ← (← centered).bool?,
      ← Json.optional? segments? segments⟩
  | _ => none

/-- The measures as a record. -/
def toJson (f : Frustum) : Json := .object f.toFields

/-- The measures that a value is. -/
def ofJson? (json : Json) : Option Frustum := (json.record? fieldNames).bind ofFields?

/-- The measures that a text says. -/
def ofText? (text : String) : Option Frustum := (Json.skim? text).bind ofJson?

end Frustum

namespace Primitive

/-- The fields of a sphere. -/
def sphereFields (diameter : Float) : List (String × Json) := [("diameter", .number diameter)]

/-- The names of the fields of a sphere. -/
def sphereNames : List String := ["diameter"]

/-- The diameter among the fields of a sphere. -/
def diameter? : List (Option Json) → Option Float
  | [diameter] => diameter.bind Json.float?
  | _ => none

/-- A primitive: its kind, and its measures beside it. -/
def toJson : Primitive → Json
  | .frustum f => .object ((Json.tagName, .string "Frustum") :: f.toFields)
  | .sphere diameter => .object ((Json.tagName, .string "Sphere") :: sphereFields diameter)

/-- How the measures of each kind are read off the record beside the tag. -/
def kinds : List (String × (Json → Option Primitive)) :=
  [("Frustum", fun data => (Frustum.ofJson? data).map .frustum),
    ("Sphere", fun data => ((data.record? sphereNames).bind diameter?).map .sphere)]

/-- The primitive that a value is. -/
def ofJson? (place : Json.Place) (json : Json) : Option Primitive := do
  let (tag, data) ← json.tagged?
  let read ← Json.variant? place kinds tag
  read data

/-- The primitive that a text says. -/
def ofText? (text : String) : Option Primitive := (Json.parse? text).bind (ofJson? .alone)

end Primitive

namespace Shape

/-- The diameter of a sphere as a record. -/
def sphereToJson (diameter : Float) : Json := .object (Primitive.sphereFields diameter)

/-- The diameter that a record of a sphere holds. -/
def sphereOfJson? (json : Json) : Option Float :=
  (json.record? Primitive.sphereNames).bind Primitive.diameter?

/-- The diameter that the text of a sphere says. -/
def sphereOfText? (text : String) : Option Float := (Json.skim? text).bind sphereOfJson?

/-- A shape: its measures under its kind. -/
def toJson : Shape → Json
  | .frustum f => .object [("Frustum", f.toJson)]
  | .cylinder f => .object [("Cylinder", f.toJson)]
  | .cone f => .object [("Cone", f.toJson)]
  | .sphere diameter => .object [("Sphere", sphereToJson diameter)]

/-- How the measures of each kind are read. -/
def kinds : List (String × (Json → Option Shape)) :=
  [("Frustum", fun json => (Frustum.ofJson? json).map .frustum),
    ("Cylinder", fun json => (Frustum.ofJson? json).map .cylinder),
    ("Cone", fun json => (Frustum.ofJson? json).map .cone),
    ("Sphere", fun json => (sphereOfJson? json).map .sphere)]

/-- The shape that a value is. -/
def ofJson? : Json → Option Shape
  | .object [(kind, measures)] => (kinds.lookup kind).bind fun read => read measures
  | _ => none

/-- The shape that a text says. -/
def ofText? (text : String) : Option Shape := (Json.skim? text).bind ofJson?

end Shape

end SolidModel
