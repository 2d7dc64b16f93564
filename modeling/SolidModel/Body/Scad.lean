import SolidModel.Body.Basic

/-!
# Source Text of Bodies

A body as source text for a constructive modeller.

The text is a list of lines. A primitive is one statement; every other node is a header that
opens a block, the lines of its children one level deeper, and a line that closes the block.
Depth is kept as a number in the line and becomes spaces only when the line is written, so
that the shape of the text, what is nested in what, can be spoken of without looking at
spaces.

A missing part of a rotation is left out of its call. Text never says more than the body.

## Main definitions

* `Scad.Line`: A line of source with its depth.
* `Scad.lines`: The lines of a body.
* `Scad.Style`: How wide a level of depth is.
* `Scad.render`: The text of a body.
-/

namespace SolidModel

namespace Scad

/-- A line of source with its depth. -/
inductive Line where
  /-- A complete statement. -/
  | statement (depth : Nat) (call : String)
  /-- The header of a block. -/
  | opening (depth : Nat) (header : String)
  /-- The end of a block. -/
  | closing (depth : Nat)
deriving DecidableEq, Repr

/-- A number in source. -/
def number (x : Float) : String := Layout.source.text x

/-- A vector in source. -/
def vector (v : Vec3) : String := v.bracketed .source

/-- The call that makes a primitive. -/
def primitiveCall : Primitive → String
  | .frustum f =>
    let segments := match f.segments with
      | none => ""
      | some n => ", $fn = " ++ toString n.toNat
    "cylinder(h = " ++ number f.height ++ ", d1 = " ++ number f.bottomDiameter ++ ", d2 = "
      ++ number f.topDiameter ++ ", center = " ++ toString f.centered ++ segments ++ ")"
  | .sphere diameter => "sphere(d = " ++ number diameter ++ ")"

/-- The angle argument of a rotation, if it has one. -/
def angleArgument : Option Angle → List String
  | none => []
  | some (.single degrees) => ["a = " ++ number degrees]
  | some (.euler degrees) => ["a = " ++ vector degrees]

/-- The pole argument of a rotation, if it has one. -/
def poleArgument : Option Vec3 → List String
  | none => []
  | some pole => ["v = " ++ vector pole]

/-- The call that applies a transformation to a block. -/
def transformationCall : Transformation → String
  | .translate offset => "translate(v = " ++ vector offset ++ ")"
  | .rotate r =>
    "rotate(" ++ String.intercalate ", " (angleArgument r.angle ++ poleArgument r.pole) ++ ")"
  | .scale factor => "scale(v = " ++ vector factor ++ ")"

/-- The call that combines a block. -/
def operatorCall : Operator → String
  | .union => "union()"
  | .difference => "difference()"
  | .intersection => "intersection()"

/-- The call that colors a block. -/
def colorCall (c : Color) : String :=
  "color(c = [" ++ String.intercalate ", " (c.toList.map number) ++ "])"

mutual

/-- The lines of a body that stands at the given depth. -/
def lines (depth : Nat) : Body → List Line
  | .primitive solid => [.statement depth (primitiveCall solid)]
  | .composition operator operands =>
    .opening depth (operatorCall operator) :: (linesAll (depth + 1) operands ++ [.closing depth])
  | .moved step child =>
    .opening depth (transformationCall step) :: (lines (depth + 1) child ++ [.closing depth])
  | .colored color child =>
    .opening depth (colorCall color) :: (lines (depth + 1) child ++ [.closing depth])

/-- The lines of bodies in order. -/
def linesAll (depth : Nat) : List Body → List Line
  | [] => []
  | body :: rest => lines depth body ++ linesAll depth rest

end

/-- How source is written. -/
structure Style where
  /-- The number of spaces for each level of depth. -/
  indent : UInt64 := 4
deriving DecidableEq, Repr

/-- The spaces before a line. -/
def padding (indent depth : Nat) : String := String.ofList (List.replicate (depth * indent) ' ')

/-- A line as text, with its end. -/
def Line.text (indent : Nat) : Line → String
  | .statement depth call => padding indent depth ++ call ++ ";\n"
  | .opening depth header => padding indent depth ++ header ++ " \x7b\n"
  | .closing depth => padding indent depth ++ "\x7d\n"

/-- The source text of a body. -/
def render (style : Style) (body : Body) : String :=
  String.join ((lines 0 body).map (Line.text style.indent.toNat))

end Scad

end SolidModel
