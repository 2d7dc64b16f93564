/-!
# Vectors

Triples of floats, and the arithmetic that geometry is built from.

A vector is plain data. Any three floats make one, including infinities and values that are
not numbers, since sums and products can run into those; `Vec3.Valid` singles out the vectors
whose magnitude is a number. The operations that can leave the valid vectors come in a checked
form elsewhere, and what is here never fails.

Results are meant to agree to the last bit wherever they are computed, so the order of every
operation is part of its definition: sums of three terms associate to the left, and nothing is
fused.

There are two ways to compare. `Vec3.same` compares the components as floats do.
`Vec3.isClose` allows each component a tolerance, as measured directions and positions need.

## Main definitions

* `Vec3`: A triple of floats.
* `Vec3.dot`, `Vec3.cross`, `Vec3.magnitude`: The products and the length.
* `Vec3.Valid`: The magnitude is a number.
* `Tolerance`: How far apart two close numbers may be.
* `Vec3.same`, `Vec3.isCloseWithin`, `Vec3.isClose`: Exact and approximate comparison.
* `Vec3.compareMagnitude`: Comparison by length.
-/

namespace SolidModel

/-- A triple of floats: a position, a direction, or a factor per axis. -/
structure Vec3 where
  x : Float
  y : Float
  z : Float
deriving DecidableEq

/-- How far apart two numbers may be and still count as close. -/
structure Tolerance where
  /-- The allowance per unit of the number compared with. -/
  relative : Float
  /-- The allowance whatever the number. -/
  absolute : Float
deriving DecidableEq

namespace Tolerance

/-- The tolerance under which directions and positions count as equal. -/
def standard : Tolerance := ⟨1e-5, 1e-8⟩

/-- Whether `a` is close to `b`, measured by the size of `b`. -/
def isClose (tolerance : Tolerance) (a b : Float) : Bool :=
  decide ((a - b).abs ≤ tolerance.absolute + tolerance.relative * b.abs)

end Tolerance

namespace Vec3

/-- The position of the world's center. -/
def origin : Vec3 := ⟨0.0, 0.0, 0.0⟩

/-- The direction of the first world axis. -/
def axisX : Vec3 := ⟨1.0, 0.0, 0.0⟩

/-- The direction of the second world axis. -/
def axisY : Vec3 := ⟨0.0, 1.0, 0.0⟩

/-- The direction of the third world axis. -/
def axisZ : Vec3 := ⟨0.0, 0.0, 1.0⟩

/-- The components in order. -/
def toList (v : Vec3) : List Float := [v.x, v.y, v.z]

instance : Neg Vec3 := ⟨fun v => ⟨-v.x, -v.y, -v.z⟩⟩

instance : Add Vec3 := ⟨fun a b => ⟨a.x + b.x, a.y + b.y, a.z + b.z⟩⟩

instance : Sub Vec3 := ⟨fun a b => ⟨a.x - b.x, a.y - b.y, a.z - b.z⟩⟩

/-- Componentwise product. -/
instance : Mul Vec3 := ⟨fun a b => ⟨a.x * b.x, a.y * b.y, a.z * b.z⟩⟩

/-- Every component multiplied by a number. -/
def times (v : Vec3) (k : Float) : Vec3 := ⟨v.x * k, v.y * k, v.z * k⟩

/-- Every component divided by a number. -/
def dividedBy (v : Vec3) (k : Float) : Vec3 := ⟨v.x / k, v.y / k, v.z / k⟩

/-- The scalar product. -/
def dot (a b : Vec3) : Float := a.x * b.x + a.y * b.y + a.z * b.z

/-- The vector product. -/
def cross (a b : Vec3) : Vec3 :=
  ⟨a.y * b.z - a.z * b.y, a.z * b.x - a.x * b.z, a.x * b.y - a.y * b.x⟩

/-- The length. -/
def magnitude (v : Vec3) : Float := (v.dot v).sqrt

/-- Whether the length is zero, as that of a vector is whose squares all vanish. -/
def isNull (v : Vec3) : Bool := v.magnitude == 0.0

/-- The length is a number, finite or not. -/
def Valid (v : Vec3) : Prop := v.magnitude.isNaN = false

instance (v : Vec3) : Decidable v.Valid := inferInstanceAs (Decidable (_ = _))

/-- Equality of components, as floats compare. -/
def same (a b : Vec3) : Bool := a.x == b.x && a.y == b.y && a.z == b.z

/-- Every component of `a` is close to that of `b`. -/
def isCloseWithin (tolerance : Tolerance) (a b : Vec3) : Bool :=
  tolerance.isClose a.x b.x && tolerance.isClose a.y b.y && tolerance.isClose a.z b.z

/-- Every component of `a` is close to that of `b`, under the standard tolerance. -/
def isClose (a b : Vec3) : Bool := isCloseWithin .standard a b

/-- The order of the lengths, where both are numbers. -/
def compareMagnitude (a b : Vec3) : Option Ordering :=
  if a.magnitude < b.magnitude then some .lt
  else if a.magnitude == b.magnitude then some .eq
  else if b.magnitude < a.magnitude then some .gt
  else none

end Vec3

end SolidModel
