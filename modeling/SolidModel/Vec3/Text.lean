import SolidModel.Decimal.Rounded
import SolidModel.Vec3.Basic

/-!
# Text of Vectors

The three written forms of a vector: in angle brackets with rounded components, for a reader;
in square brackets in any number form; and as a record naming every component, in full
precision, where a message has to be exact.

## Main definitions

* `Vec3.display`: The rounded form, `<0.0, 0.625, 1e+02>`.
* `Vec3.bracketed`: The list form in a given layout of numbers.
* `Vec3.record`: The record form.
* `optionRecord`: The record form of something that may be absent.
-/

namespace SolidModel

namespace Vec3

/-- The rounded form for a reader. -/
def display (v : Vec3) : String :=
  "<" ++ showRounded v.x ++ ", " ++ showRounded v.y ++ ", " ++ showRounded v.z ++ ">"

/-- The components in square brackets, each in the given layout. -/
def bracketed (layout : Layout) (v : Vec3) : String :=
  "[" ++ layout.text v.x ++ ", " ++ layout.text v.y ++ ", " ++ layout.text v.z ++ "]"

/-- The record form, with every component named. -/
def record (v : Vec3) : String :=
  "Vector \x7b x: " ++ Layout.record.text v.x ++ ", y: " ++ Layout.record.text v.y
    ++ ", z: " ++ Layout.record.text v.z ++ " \x7d"

end Vec3

/-- The record form of an optional value, from that of the value. -/
def optionRecord {α : Type} (record : α → String) : Option α → String
  | none => "None"
  | some a => "Some(" ++ record a ++ ")"

end SolidModel
