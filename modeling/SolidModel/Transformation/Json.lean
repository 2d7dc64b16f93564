import SolidModel.Transformation.Basic
import SolidModel.Vec3.Json

/-!
# JSON of Transformations

Transformations, rotations and angles, in either form of vector.

An angle is a number or a vector, and which of the two it is shows from the value itself. A
rotation may lack its angle, its pole or both; it is written with null in their place, and read
with null or nothing there. A transformation names its kind and holds its data beside the name,
a rotation being spread out among the fields.

## Main definitions

* `Angle.toJson`, `Angle.ofJson?`, `Angle.ofText?`: An angle.
* `Rotation.toJson`, `Rotation.ofJson?`, `Rotation.ofText?`: A rotation on its own.
* `Transformation.toJson`, `Transformation.ofJson?`, `Transformation.ofText?`: A transformation.
-/

namespace SolidModel

namespace Angle

/-- An angle: a number, or three of them in a form. -/
def toJson (form : Vec3.Form) : Angle → Json
  | .single degrees => .number degrees
  | .euler degrees => degrees.toJson form

/-- The angle that a value is in a form. -/
def ofJson? (form : Vec3.Form) (json : Json) : Option Angle :=
  match json.float? with
  | some degrees => some (.single degrees)
  | none => (Vec3.ofJson? form json).map .euler

/-- The angle that a text says in a form. -/
def ofText? (form : Vec3.Form) (text : String) : Option Angle :=
  (Json.parse? text).bind (ofJson? form)

end Angle

namespace Rotation

/-- The fields of a rotation in order. -/
def toFields (form : Vec3.Form) (rotation : Rotation) : List (String × Json) :=
  [("angle", Json.ofOption (Angle.toJson form) rotation.angle),
    ("pole", Json.ofOption (Vec3.toJson form) rotation.pole)]

/-- The names of the fields in order. -/
def fieldNames : List String := ["angle", "pole"]

/-- The rotation of two fields, each of which may be absent. -/
def ofFields? (form : Vec3.Form) : List (Option Json) → Option Rotation
  | [angle, pole] => do
    pure ⟨← Json.optional? (Angle.ofJson? form) angle, ← Json.optional? (Vec3.ofJson? form) pole⟩
  | _ => none

/-- A rotation as a record. -/
def toJson (form : Vec3.Form) (rotation : Rotation) : Json := .object (rotation.toFields form)

/-- The rotation that a value is in a form. -/
def ofJson? (form : Vec3.Form) (json : Json) : Option Rotation :=
  (json.record? fieldNames).bind (ofFields? form)

/-- The rotation that a text says in a form. -/
def ofText? (form : Vec3.Form) (text : String) : Option Rotation :=
  (Json.skim? text).bind (ofJson? form)

end Rotation

namespace Transformation

/-- A transformation: its kind, and its data beside it. -/
def toJson (form : Vec3.Form) : Transformation → Json
  | .translate offset =>
    .object [(Json.tagName, .string "Translate"), ("offset", offset.toJson form)]
  | .rotate rotation => .object ((Json.tagName, .string "Rotate") :: rotation.toFields form)
  | .scale factor => .object [(Json.tagName, .string "Scale"), ("factor", factor.toJson form)]

/-- The vector that is the only field of a record. -/
def vector? (form : Vec3.Form) (name : String) (data : Json) : Option Vec3 :=
  match data.record? [name] with
  | some [some vector] => Vec3.ofJson? form vector
  | _ => none

/-- How the data of each kind is read off the record beside the tag. -/
def kinds (form : Vec3.Form) : List (String × (Json → Option Transformation)) :=
  [("Translate", fun data => (vector? form "offset" data).map .translate),
    ("Rotate", fun data => (Rotation.ofJson? form data).map .rotate),
    ("Scale", fun data => (vector? form "factor" data).map .scale)]

/-- The transformation that a value is in a form. -/
def ofJson? (form : Vec3.Form) (place : Json.Place) (json : Json) : Option Transformation := do
  let (tag, data) ← json.tagged?
  let read ← Json.variant? place (kinds form) tag
  read data

/-- The transformation that a text says in a form. -/
def ofText? (form : Vec3.Form) (text : String) : Option Transformation :=
  (Json.parse? text).bind (ofJson? form .alone)

end Transformation

end SolidModel
