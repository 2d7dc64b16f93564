import SolidModel.Vec3.Text

/-!
# Normals and Degenerate Vectors

Directions derived from vectors, and the ways in which there is none.

A vector of undefined length, a null vector, two vectors on one line: each leaves some question
about directions without an answer. Such inputs are reported and not turned into values that
are no numbers, and the report says which case it was, because callers treat the cases
differently. Two vectors on one line are the mild ones. An alignment asks for some axis
perpendicular to both, and there any perpendicular of one will do.

`Degeneracy.isColinear` picks out those mild cases.

## Main definitions

* `Degeneracy`: Why a vector operation has no answer.
* `Degeneracy.message`: Its wording.
* `Vec3.checked`: A vector, if its length is a number.
* `Vec3.normalized`, `Vec3.scaled`: The direction of a vector, and a multiple of it.
* `Vec3.normal`: The unit normal of two vectors.
* `Vec3.arbitraryNormal`: Some unit normal of one vector.
-/

namespace SolidModel

/-- Why a vector operation has no answer. -/
inductive Degeneracy where
  /-- The length of the vector is not a number. -/
  | undefinedMagnitude (v : Vec3)
  /-- One of two vectors is null; the shorter is given first. -/
  | nullVector (null other : Vec3)
  /-- Two vectors point the same way. -/
  | parallel (left right : Vec3)
  /-- Two vectors point opposite ways. -/
  | antiparallel (left right : Vec3)
  /-- No world axis is independent of the vector. -/
  | noNormal (v : Vec3)
deriving DecidableEq

namespace Degeneracy

/-- Whether the trouble is that two vectors lie on one line. -/
def isColinear : Degeneracy → Bool
  | .parallel .. => true
  | .antiparallel .. => true
  | _ => false

/-- The wording of the report. -/
def message : Degeneracy → String
  | .undefinedMagnitude v => "vector " ++ v.bracketed .record ++ " has a NaN magnitude"
  | .nullVector null other =>
    "no normal exists between null vector " ++ null.display ++ " and " ++ other.display
  | .parallel left right =>
    "no normal exists between parallel vectors " ++ left.display ++ " and " ++ right.display
  | .antiparallel left right =>
    "no normal exists between antiparallel vectors " ++ left.display ++ " and " ++ right.display
  | .noNormal v => "no arbitrary normal exists for " ++ v.display

/-- The report on two vectors of which one is null: the shorter comes first. -/
def ofNull (a b : Vec3) : Degeneracy :=
  if a.magnitude ≤ b.magnitude then .nullVector a b else .nullVector b a

end Degeneracy

namespace Vec3

/-- The vector itself, if its length is a number. -/
def checked (v : Vec3) : Except Degeneracy Vec3 :=
  if v.magnitude.isNaN then .error (.undefinedMagnitude v) else .ok v

/-- The vector of length one in this direction. The null vector has none. -/
def normalized (v : Vec3) : Except Degeneracy Vec3 := (v.dividedBy v.magnitude).checked

/-- The multiple of the vector by a number. -/
def scaled (v : Vec3) (factor : Float) : Except Degeneracy Vec3 := (v.times factor).checked

/-- Two vectors count as colinear when their product is no longer than this part of the
    product of their lengths. -/
def colinearShare : Float := 1e-12

/-- The unit vector perpendicular to both, by the right-hand rule. -/
def normal (a b : Vec3) : Except Degeneracy Vec3 :=
  if a.isNull || b.isNull then .error (.ofNull a b)
  else
    let product := a.cross b
    if product.magnitude ≤ colinearShare * a.magnitude * b.magnitude then
      .error (if 0.0 < a.dot b then .parallel a b else .antiparallel a b)
    else (product.dividedBy product.magnitude).checked

/-- The normal with the first of the given axes that is not colinear with the vector. -/
def normalAmong (v : Vec3) : List Vec3 → Except Degeneracy Vec3
  | [] => .error (.noNormal v)
  | axis :: rest =>
    match v.normal axis with
    | .ok n => .ok n
    | .error e => if e.isColinear then normalAmong v rest else .error e

/-- Some unit vector perpendicular to this one, found from the world axes in order. -/
def arbitraryNormal (v : Vec3) : Except Degeneracy Vec3 := v.normalAmong [axisX, axisY, axisZ]

end Vec3

end SolidModel
