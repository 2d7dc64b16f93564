import SolidModel.Operator
import SolidModel.Shape
import SolidModel.Transformation.Basic

/-!
# Bodies

The resolved geometry of a component, as an expression.

A body is a tree whose leaves are primitives. Compositions combine any number of bodies, even
none; transformations and colors each wrap one. Nothing is simplified: the order of operands
and the nesting of wrappers are what whoever built the body asked for, because a difference
is not symmetric and a rotation after an offset is not the offset after the rotation.

Bodies compare by structure, with numbers compared as floats are, so that a body with a value
that is no number equals nothing, not even itself.

## Main definitions

* `Color`: Red, green, blue and opacity.
* `Body`: A body expression.
* `Body.same`: Equality of bodies.
* `Body.primitiveCount`: The number of leaves.
* `Body.wrap`: A body under a list of transformations.
-/

namespace SolidModel

/-- A color with channels from zero to one. -/
structure Color where
  red : Float
  green : Float
  blue : Float
  /-- How opaque the color is. -/
  alpha : Float
deriving DecidableEq

namespace Color

/-- An opaque color. -/
def rgb (red green blue : Float) : Color := ⟨red, green, blue, 1.0⟩

/-- Equality of channels, as floats compare. -/
def same (a b : Color) : Bool :=
  a.red == b.red && a.green == b.green && a.blue == b.blue && a.alpha == b.alpha

/-- The channels in order. -/
def toList (c : Color) : List Float := [c.red, c.green, c.blue, c.alpha]

end Color

/-- The resolved geometry of a component. -/
inductive Body where
  /-- A single solid. -/
  | primitive (solid : Primitive)
  /-- Bodies combined in order. -/
  | composition (operator : Operator) (operands : List Body)
  /-- A body moved by one transformation. -/
  | moved (step : Transformation) (child : Body)
  /-- A body in a color. -/
  | colored (color : Color) (child : Body)

namespace Body

mutual

/-- The number of primitives in a body. -/
def primitiveCount : Body → Nat
  | .primitive _ => 1
  | .composition _ operands => primitiveCountAll operands
  | .moved _ child => primitiveCount child
  | .colored _ child => primitiveCount child

/-- The number of primitives in a list of bodies. -/
def primitiveCountAll : List Body → Nat
  | [] => 0
  | body :: rest => primitiveCount body + primitiveCountAll rest

end

mutual

/-- Equality of bodies: the same tree with the same numbers, as floats compare. -/
def same : Body → Body → Bool
  | .primitive a, .primitive b => a.same b
  | .composition operator operands, .composition operator' operands' =>
    operator == operator' && sameAll operands operands'
  | .moved step child, .moved step' child' => step.same step' && same child child'
  | .colored color child, .colored color' child' => color.same color' && same child child'
  | _, _ => false

/-- Equality of lists of bodies, in order and in number. -/
def sameAll : List Body → List Body → Bool
  | [], [] => true
  | a :: as, b :: bs => same a b && sameAll as bs
  | _, _ => false

end

/-- The body under transformations, the first of which is applied first and so stands
    innermost. -/
def wrap (body : Body) (steps : List Transformation) : Body :=
  steps.foldl (fun child step => .moved step child) body

/-- The body in a color, if there is one. -/
def paint (body : Body) : Option Color → Body
  | none => body
  | some color => .colored color body

end Body

end SolidModel
