import SolidModel.Body.Scad
import SolidModel.Json.Decode
import SolidModel.Json.Reader

/-!
# JSON of the Source Style

The style of source text as a record of one field, which may be left out.

## Main definitions

* `Scad.Style.toJson`, `Scad.Style.ofJson?`, `Scad.Style.ofText?`: A style.
-/

namespace SolidModel

namespace Scad.Style

/-- A style as a record. -/
def toJson (style : Style) : Json := .object [("indent", .natural style.indent.toNat)]

/-- A width of indentation. -/
def indent? (json : Json) : Option UInt64 := (json.naturalBelow? UInt64.size).map UInt64.ofNat

/-- The style that a value is. -/
def ofJson? (json : Json) : Option Style := do
  let fields ← json.recordStart? ["indent"]
  match fields with
  | [indent] => (Json.orDefault? ({} : Style).indent indent? indent).map fun indent => ⟨indent⟩
  | _ => none

/-- The style that a text says. -/
def ofText? (text : String) : Option Style := (Json.skim? text).bind ofJson?

end Scad.Style

end SolidModel
