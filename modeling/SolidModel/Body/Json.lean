import SolidModel.Body.Basic
import SolidModel.Json.Reader
import SolidModel.Json.Writer
import SolidModel.Shape.Json
import SolidModel.Transformation.Json

/-!
# JSON of Bodies

Bodies as JSON values, and as JSON text.

Every node of a body names its kind and holds its parts in fields beside the name. All vectors
are records. A body is written in the long form, one field to a line, and read from any JSON
text that says the same: fields in another order, fields that mean nothing, records as lists.

## Main definitions

* `Color.toJson`, `Color.ofJson?`, `Color.ofText?`: A color.
* `Operator.toJson`, `Operator.ofJson?`, `Operator.ofText?`: An operator.
* `Body.toJson`, `Body.ofJson?`: A body.
* `Body.toText`, `Body.ofText?`: The text of a body.
-/

namespace SolidModel

namespace Color

/-- A color as a record. -/
def toJson (c : Color) : Json :=
  .object [("r", .number c.red), ("g", .number c.green), ("b", .number c.blue),
    ("a", .number c.alpha)]

/-- The color that a value is. -/
def ofJson? (json : Json) : Option Color := do
  let channels ← Json.floats? (← json.record? ["r", "g", "b", "a"])
  match channels with
  | [red, green, blue, alpha] => some ⟨red, green, blue, alpha⟩
  | _ => none

/-- The color that a text says. -/
def ofText? (text : String) : Option Color := (Json.skim? text).bind ofJson?

end Color

namespace Operator

/-- All operators under their names. -/
def kinds : List (String × Operator) :=
  [union, difference, intersection].map fun operator => (operator.name, operator)

/-- An operator: its name. -/
def toJson (operator : Operator) : Json := .string operator.name

/-- The operator that a value is. -/
def ofJson? (place : Json.Place) (json : Json) : Option Operator := Json.choice? place kinds json

/-- The operator that a text says. -/
def ofText? (text : String) : Option Operator := (Json.skim? text).bind (ofJson? .alone)

end Operator

namespace Body

/-- The kinds of nodes. -/
inductive Kind where
  | primitive
  | composition
  | moved
  | colored
deriving DecidableEq, Repr

namespace Kind

/-- The name of a kind. -/
def name : Kind → String
  | .primitive => "Primitive"
  | .composition => "Composition"
  | .moved => "Transform"
  | .colored => "Color"

/-- The names of the parts in order. -/
def partNames : Kind → List String
  | .primitive => ["primitive"]
  | .composition => ["operator", "operands"]
  | .moved => ["transform", "child"]
  | .colored => ["rgba", "child"]

/-- All kinds under their names. -/
def table : List (String × Kind) :=
  [primitive, composition, moved, colored].map fun kind => (kind.name, kind)

end Kind

/-- A node of a kind with its parts. -/
def node (kind : Kind) (parts : List (String × Json)) : Json :=
  .object ((Json.tagName, .string kind.name) :: parts)

mutual

/-- A body: the kind of its root, and the parts beside it. -/
def toJson : Body → Json
  | .primitive solid => node .primitive [("primitive", solid.toJson)]
  | .composition operator operands =>
    node .composition [("operator", operator.toJson), ("operands", .array (toJsonAll operands))]
  | .moved step child => node .moved [("transform", step.toJson .record), ("child", toJson child)]
  | .colored color child => node .colored [("rgba", color.toJson), ("child", toJson child)]

/-- Bodies, one by one. -/
def toJsonAll : List Body → List Json
  | [] => []
  | body :: rest => toJson body :: toJsonAll rest

end

mutual

/-- The body that a value is. Whatever is below the root is held by something tagged. -/
def ofJson? (place : Json.Place) (json : Json) : Option Body := do
  let (tag, _) ← json.tagged?
  let kind ← Json.variant? place Kind.table tag
  match kind, json.parts? kind.partNames with
  | .primitive, some [solid] => (Primitive.ofJson? .held solid.1).map .primitive
  | .composition, some [operator, ⟨.array items, _⟩] =>
    let operator ← Operator.ofJson? .held operator.1
    (ofJsonAll? items).map (.composition operator)
  | .moved, some [step, ⟨child, _⟩] =>
    let step ← Transformation.ofJson? .record .held step.1
    (ofJson? .held child).map (.moved step)
  | .colored, some [color, ⟨child, _⟩] =>
    let color ← Color.ofJson? color.1
    (ofJson? .held child).map (.colored color)
  | _, _ => none
termination_by sizeOf json
decreasing_by
  all_goals simp_all
  all_goals omega

/-- The bodies that values are, one by one. -/
def ofJsonAll? : List Json → Option (List Body)
  | [] => some []
  | json :: rest => do
    let body ← ofJson? .held json
    let others ← ofJsonAll? rest
    pure (body :: others)
termination_by values => sizeOf values

end

/-- The text of a body, one field to a line. -/
def toText (body : Body) : String := body.toJson.pretty

/-- The body that a text says. -/
def ofText? (text : String) : Option Body := (Json.parse? text).bind (ofJson? .alone)

end Body

end SolidModel
