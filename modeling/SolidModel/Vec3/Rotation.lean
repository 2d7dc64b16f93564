import SolidModel.Vec3.Normal

/-!
# Rotations and Angles of Vectors

Turning a vector about a pole, and measuring the turn between two.

A turn has a sign only once it is seen from somewhere. `Vec3.signedAngle` therefore takes a
direction to look along: both vectors are first projected onto the plane perpendicular to it,
and the turn is positive when it is seen as counterclockwise. Where the direction swallows one
of the vectors whole, nothing is left to measure in that plane and the vectors are taken as
they are.

Angles are in degrees throughout and are converted where a trigonometric function is called. Those
functions are taken as they come: their last digits depend on the platform, and nothing here
depends on the platform otherwise. So they are a parameter, and the platform's own are the default.

## Main definitions

* `Trigonometry`: The trigonometric functions of a platform.
* `Vec3.rotate`: The vector turned about a pole of length one.
* `Vec3.reject`: The part of a vector perpendicular to an axis.
* `Vec3.signedAngle`: The turn from one vector to another, seen along a direction.
* `Vec3.angleBetween`: The same with a default direction, and with the cases that have none.
-/

namespace SolidModel

/-- The trigonometric functions of a platform, for angles in radians. -/
class Trigonometry where
  sin : Float → Float
  cos : Float → Float
  acos : Float → Float

instance : Trigonometry := ⟨Float.sin, Float.cos, Float.acos⟩

variable [Trigonometry]

namespace Vec3

/-- Degrees to radians, rounded to the nearest float. -/
def radiansPerDegree : Float := 0.017453292519943295

/-- Radians to degrees, rounded to the nearest float. -/
def degreesPerRadian : Float := 57.29577951308232

/-- The vector turned by an angle about a pole of length one, by the right-hand rule: the part
    along the vector, the part across it and the part along the pole are summed in this
    order. -/
def rotate (v : Vec3) (angle : Float) (pole : Vec3) : Except Degeneracy Vec3 :=
  let radians := angle * radiansPerDegree
  let s := Trigonometry.sin radians
  let c := Trigonometry.cos radians
  (v.times c + (pole.cross v).times s + pole.times (pole.dot v * (1.0 - c))).checked

/-- The part of a vector perpendicular to an axis. A null axis takes nothing away. -/
def reject (v axis : Vec3) : Vec3 :=
  let square := axis.dot axis
  if square == 0.0 then v else v - axis.times (v.dot axis / square)

/-- A cosine brought back into its range after rounding. What is no number stays. -/
def clampCosine (c : Float) : Float := if c < -1.0 then -1.0 else if 1.0 < c then 1.0 else c

/-- The angle between two vectors, without a sign. -/
def unsignedAngle (a b : Vec3) : Float :=
  Trigonometry.acos (clampCosine (a.dot b / (a.magnitude * b.magnitude))) * degreesPerRadian

/-- The turn from one vector to another, seen along a direction. -/
def signedAngle (a b look : Vec3) : Float :=
  let flatA := a.reject look
  let flatB := b.reject look
  let angle :=
    if 0.0 < flatA.magnitude && 0.0 < flatB.magnitude then unsignedAngle flatA flatB
    else unsignedAngle a b
  if (a.cross b).dot look < 0.0 then -angle else angle

/-- The turn from one vector to another, seen along `look?`. Without it the normal of the two
    serves, from which every turn is positive, and vectors on one line, which have no normal,
    are a turn of nothing or of half a circle. From a null vector there is no turn, and the report
    says what it says of the normal. -/
def angleBetween (a b : Vec3) (look? : Option Vec3) : Except Degeneracy Float :=
  let seenAlong (look : Vec3) : Except Degeneracy Float :=
    if a.isNull || b.isNull then
      match a.normal b with
      | .error e => .error e
      | .ok _ => .error (.noNormal a)
    else .ok (signedAngle a b look)
  match look? with
  | some look => seenAlong look
  | none =>
    match a.normal b with
    | .ok look => seenAlong look
    | .error (.parallel ..) => .ok 0.0
    | .error (.antiparallel ..) => .ok 180.0
    | .error e => .error e

end Vec3

end SolidModel
