import SolidModel.Json.Basic
import SolidModel.Json.Token

/-!
# Reading JSON

Tokens put together to a value.

The reader takes one token at a time and keeps what is unfinished on a stack: the lists and
objects that are open, each with what it holds so far. Its state says what may come next, and
every state but the last names all tokens it accepts. So there is no recursion to bound, and
nothing is ever looked at twice. A text is a value when its tokens lead from the state that
waits for a value to the state that has one.

Nesting has a limit. A list or an object inside too many others is unreadable however simple it
is, so that whoever walks over a value that was read can rely on its depth. So is an object with
an unreadable key, since it cannot be told which field that is.

A text can be read in two ways. `Json.parse?` wants all of it to be readable. `Json.skim?` wants
only its form to be right, and leaves to whoever takes the value apart to stumble over what is
unreadable, or to pass it by.

## Main definitions

* `Json.maxDepth`: How deep lists and objects may be nested.
* `Json.Frame`: An open list or object.
* `Json.Reading`: What may come next.
* `Json.Reading.step`: The next state after a token.
* `Json.skim?`: The value of a text of which parts may be unreadable.
* `Json.parse?`: The value of a text.
-/

namespace SolidModel

namespace Json

/-- How deep lists and objects may be nested. -/
def maxDepth : Nat := 127

/-- A list or an object that is open, holding what came before, the latest first. -/
inductive Frame where
  | item (before : List Json)
  | field (before : List (Option String × Json)) (key : Option String)

/-- What may come next. Behind the opening of a list or object it is not yet on the stack. A key
    is absent where it is unreadable. -/
inductive Reading where
  /-- A value. -/
  | value (stack : List Frame)
  /-- The first item of a list, or its end. -/
  | firstItem (stack : List Frame)
  /-- The first key of an object, or its end. -/
  | firstField (stack : List Frame)
  /-- A further key of an object. -/
  | nextField (before : List (Option String × Json)) (stack : List Frame)
  /-- The colon behind a key. -/
  | colon (before : List (Option String × Json)) (key : Option String) (stack : List Frame)
  /-- A comma, or the end of a list. -/
  | afterItem (items : List Json) (stack : List Frame)
  /-- A comma, or the end of an object. -/
  | afterField (fields : List (Option String × Json)) (stack : List Frame)
  /-- Nothing. -/
  | done (value : Json)

/-- An object of fields whose keys have to be readable. -/
def ofFields (fields : List (Option String × Json)) : Json :=
  match fields.mapM fun (key, value) => key.map (·, value) with
  | some fields => .object fields
  | none => .unreadable

namespace Reading

/-- A value is complete, and goes where the top of the stack says. -/
def deliver (value : Json) : List Frame → Reading
  | [] => .done value
  | .item before :: stack => .afterItem (value :: before) stack
  | .field before key :: stack => .afterField ((key, value) :: before) stack

/-- A list or an object is closed. It can be read if it is not held by too many others, which
    shows without counting all of them. -/
def close (value : Json) (stack : List Frame) : Reading :=
  deliver (if (stack.drop (maxDepth - 1)).isEmpty then value else .unreadable) stack

/-- The state after the first token of a value. -/
def begin (stack : List Frame) : Token → Option Reading
  | .null => some (deliver .null stack)
  | .bool b => some (deliver (.bool b) stack)
  | .natural n => some (deliver (.natural n) stack)
  | .number x => some (deliver ((x.map Json.number).getD .unreadable) stack)
  | .string s => some (deliver ((s.map Json.string).getD .unreadable) stack)
  | .openArray => some (.firstItem stack)
  | .openObject => some (.firstField stack)
  | _ => none

/-- The state after a token, or nothing if the token may not come. -/
def step : Reading → Token → Option Reading
  | .value stack, token => begin stack token
  | .firstItem stack, .closeArray => some (close (.array []) stack)
  | .firstItem stack, token => begin (.item [] :: stack) token
  | .firstField stack, .closeObject => some (close (.object []) stack)
  | .firstField stack, .string key => some (.colon [] key stack)
  | .nextField before stack, .string key => some (.colon before key stack)
  | .colon before key stack, .colon => some (.value (.field before key :: stack))
  | .afterItem items stack, .comma => some (.value (.item items :: stack))
  | .afterItem items stack, .closeArray => some (close (.array items.reverse) stack)
  | .afterField fields stack, .comma => some (.nextField fields stack)
  | .afterField fields stack, .closeObject => some (close (ofFields fields.reverse) stack)
  | _, _ => none

/-- The state after a list of tokens. -/
def run : Reading → List Token → Option Reading
  | reading, [] => some reading
  | reading, token :: rest => (reading.step token).bind fun next => next.run rest

end Reading

/-- The value that the tokens spell, if they spell exactly one. -/
def ofTokens? (tokens : List Token) : Option Json :=
  match Reading.run (.value []) tokens with
  | some (.done value) => some value
  | _ => none

/-- The value of a text of which parts may be unreadable. -/
def skim? (text : String) : Option Json := (Token.ofChars? text.toList).bind ofTokens?

/-- The value of a text all of which is readable. -/
def parse? (text : String) : Option Json := (skim? text).filter isReadable

end Json

end SolidModel
