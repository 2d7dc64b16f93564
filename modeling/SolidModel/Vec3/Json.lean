import SolidModel.Json.Decode
import SolidModel.Json.Reader
import SolidModel.Vec3.Basic

/-!
# JSON of Vectors

The two JSON forms of a vector, and the form of a tolerance.

Vectors of a finished body are records with named components. Those of a model under
construction are plain lists of three numbers, which say the same in less space. The record is
the more liberal to read: it may be written as a list as well, and the list as nothing else.

No vector read off JSON needs a check of its length. Numbers that were read are finite, and the
length of a vector of finite components is a number, if perhaps an infinite one.

## Main definitions

* `Vec3.Form`: How vectors are written.
* `Vec3.toJson`, `Vec3.ofJson?`, `Vec3.ofText?`: A vector in a form.
* `Tolerance.toJson`, `Tolerance.ofJson?`, `Tolerance.ofText?`: A tolerance.
-/

namespace SolidModel

namespace Vec3

/-- How vectors are written. -/
inductive Form where
  /-- The three components in order. -/
  | list
  /-- The three components by name. -/
  | record
deriving DecidableEq, Repr

/-- The names of the components in order. -/
def componentNames : List String := ["x", "y", "z"]

/-- The vector of exactly three components. -/
def ofList? : List Float → Option Vec3
  | [x, y, z] => some ⟨x, y, z⟩
  | _ => none

/-- A vector in a form. -/
def toJson (form : Form) (v : Vec3) : Json :=
  match form with
  | .list => Json.ofFloats v.toList
  | .record => .object [("x", .number v.x), ("y", .number v.y), ("z", .number v.z)]

/-- The vector that a value is in a form. -/
def ofJson? (form : Form) (json : Json) : Option Vec3 := do
  let components ←
    match form with
    | .list => json.array?.map fun items => items.map some
    | .record => json.record? componentNames
  ofList? (← Json.floats? components)

/-- The vector that a text says in a form. -/
def ofText? (form : Form) (text : String) : Option Vec3 := (Json.skim? text).bind (ofJson? form)

end Vec3

namespace Tolerance

/-- A tolerance as a record. -/
def toJson (tolerance : Tolerance) : Json :=
  .object [("relative", .number tolerance.relative), ("absolute", .number tolerance.absolute)]

/-- The tolerance that a value is. Either allowance may be left to the standard. -/
def ofJson? (json : Json) : Option Tolerance := do
  let fields ← json.recordStart? ["relative", "absolute"]
  match fields with
  | [relative, absolute] =>
    pure ⟨← Json.orDefault? standard.relative Json.float? relative,
      ← Json.orDefault? standard.absolute Json.float? absolute⟩
  | _ => none

/-- The tolerance that a text says. -/
def ofText? (text : String) : Option Tolerance := (Json.skim? text).bind ofJson?

end Tolerance

end SolidModel
