import SolidModel.Connector.Basic
import SolidModel.Vec3.Json

/-!
# JSON of Connectors

A connector is a record of its three vectors, each of them a list.

## Main definitions

* `Connector.toJson`, `Connector.ofJson?`, `Connector.ofText?`: A connector.
-/

namespace SolidModel

namespace Connector

/-- A connector as a record. -/
def toJson (c : Connector) : Json :=
  .object [("point", c.point.toJson .list), ("axis", c.axis.toJson .list),
    ("normal", c.normal.toJson .list)]

/-- The connector that a value is. -/
def ofJson? (json : Json) : Option Connector := do
  let fields ← json.record? ["point", "axis", "normal"]
  let vectors ← fields.mapM fun field => field.bind (Vec3.ofJson? .list)
  match vectors with
  | [point, axis, normal] => some ⟨point, axis, normal⟩
  | _ => none

/-- The connector that a text says. -/
def ofText? (text : String) : Option Connector := (Json.skim? text).bind ofJson?

end Connector

end SolidModel
