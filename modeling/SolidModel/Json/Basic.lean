/-!
# JSON Values

What a JSON text says.

Objects keep their fields in order and keep repeated keys: whether a repetition matters is for
whoever reads the object to say. Numbers come in two kinds, because readers ask two questions.
A count has to be written as a plain natural number, without sign, fraction or exponent; a
measure may be any number. So a plain natural that fits a machine word stays what it is, and
every other number is a float.

A part of a text may have the form of a value and still say nothing that can be kept. It takes
its place among the others as an unreadable value, and whether it matters is again for whoever
reads what holds it to say.

## Main definitions

* `Json`: A JSON value.
* `Json.isReadable`: Whether no part of a value is unreadable.
* `Json.ofOption`: A value that may be absent.
* `Json.ofFloats`: A list of numbers.
-/

namespace SolidModel

/-- A JSON value. -/
inductive Json where
  | null
  | bool (value : Bool)
  /-- A plain natural number. -/
  | natural (value : Nat)
  /-- Any other number. -/
  | number (value : Float)
  | string (value : String)
  | array (items : List Json)
  | object (fields : List (String × Json))
  /-- A value of which only the form is known. -/
  | unreadable

namespace Json

mutual

/-- Whether no part of a value is unreadable. -/
def isReadable : Json → Bool
  | .unreadable => false
  | .array items => areReadable items
  | .object fields => fieldsReadable fields
  | _ => true

/-- Whether no part of any item is unreadable. -/
def areReadable : List Json → Bool
  | [] => true
  | item :: rest => item.isReadable && areReadable rest

/-- Whether no part of any field is unreadable. -/
def fieldsReadable : List (String × Json) → Bool
  | [] => true
  | (_, value) :: rest => value.isReadable && fieldsReadable rest

end

/-- An optional value, absence being null. -/
def ofOption {α : Type} (toJson : α → Json) : Option α → Json
  | none => .null
  | some a => toJson a

/-- A list of numbers. -/
def ofFloats (xs : List Float) : Json := .array (xs.map .number)

end Json

end SolidModel
