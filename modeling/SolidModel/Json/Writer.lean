import SolidModel.Decimal.Layout
import SolidModel.Json.Basic

/-!
# Writing JSON

A JSON value as text.

There are two forms. The compact form has no white space. The pretty form puts every item and
every field on a line of its own, two spaces deeper than what holds it, and a space behind
each colon; only empty lists and objects stay on one line. The forms differ in white space and
in nothing else, so there is one writer, which is told what to write between things.

Numbers get the fewest digits that say them. A number that is not finite has no JSON form and
becomes null, and so does a value that could not be read.

## Main definitions

* `Json.escape`: A character inside quotes.
* `Json.Spacing`: The white space of a form.
* `Json.write`: A value as text.
* `Json.compact`, `Json.pretty`: The two forms.
-/

namespace SolidModel

namespace Json

/-- The lowercase hexadecimal digit of a number below sixteen. -/
def hexDigit (n : Nat) : Char := Nat.digitChar n

/-- A character inside quotes: quotes, backslashes and control characters are escaped. -/
def escape (c : Char) : List Char :=
  if c = '"' then ['\\', '"']
  else if c = '\\' then ['\\', '\\']
  else if c = '\x08' then ['\\', 'b']
  else if c = '\x0c' then ['\\', 'f']
  else if c = '\n' then ['\\', 'n']
  else if c = '\r' then ['\\', 'r']
  else if c = '\t' then ['\\', 't']
  else if c.toNat < 32 then
    ['\\', 'u', '0', '0', hexDigit (c.toNat / 16), hexDigit (c.toNat % 16)]
  else [c]

/-- A string in quotes. -/
def quote (s : String) : String := String.ofList ('"' :: (s.toList.flatMap escape ++ ['"']))

/-- A number, or null where it is not finite. -/
def numberText (x : Float) : String :=
  match classify x with
  | .finite .. => Layout.json.text x
  | _ => "null"

/-- The white space of a form. -/
structure Spacing where
  /-- What stands before an item at the given depth. -/
  line : Nat → String
  /-- What stands between a key and its value. -/
  colon : String

mutual

/-- A value as text, standing at the given depth. -/
def write (spacing : Spacing) (depth : Nat) : Json → String
  | .null => "null"
  | .bool value => if value then "true" else "false"
  | .natural value => Nat.repr value
  | .number value => numberText value
  | .string value => quote value
  | .unreadable => "null"
  | .array [] => "[]"
  | .array (item :: rest) =>
    "[" ++ spacing.line (depth + 1) ++ write spacing (depth + 1) item
      ++ writeItems spacing depth rest
  | .object [] => "\x7b\x7d"
  | .object (field :: rest) =>
    "\x7b" ++ spacing.line (depth + 1) ++ writeField spacing (depth + 1) field
      ++ writeFields spacing depth rest

/-- The items after the first, and the end of the list. -/
def writeItems (spacing : Spacing) (depth : Nat) : List Json → String
  | [] => spacing.line depth ++ "]"
  | item :: rest =>
    "," ++ spacing.line (depth + 1) ++ write spacing (depth + 1) item
      ++ writeItems spacing depth rest

/-- A field, its key quoted. -/
def writeField (spacing : Spacing) (depth : Nat) : String × Json → String
  | (key, value) => quote key ++ spacing.colon ++ write spacing depth value

/-- The fields after the first, and the end of the object. -/
def writeFields (spacing : Spacing) (depth : Nat) : List (String × Json) → String
  | [] => spacing.line depth ++ "\x7d"
  | field :: rest =>
    "," ++ spacing.line (depth + 1) ++ writeField spacing (depth + 1) field
      ++ writeFields spacing depth rest

end

/-- The form without white space. -/
def compactSpacing : Spacing := ⟨fun _ => "", ":"⟩

/-- The form with a line for every item and two spaces for every level. -/
def prettySpacing : Spacing :=
  ⟨fun depth => String.ofList ('\n' :: List.replicate (2 * depth) ' '), ": "⟩

/-- A value as text without white space. -/
def compact (value : Json) : String := value.write compactSpacing 0

/-- A value as text with a line for every item. -/
def pretty (value : Json) : String := value.write prettySpacing 0

end Json

end SolidModel
