/-!
# Boolean Operators

How several solids become one.

## Main definitions

* `Operator`: Union, difference or intersection.
* `Operator.name`: The capitalised name, as records and JSON write it.
-/

namespace SolidModel

/-- How the operands of a composition are combined. -/
inductive Operator where
  /-- All operands together. -/
  | union
  /-- The first operand without the others. -/
  | difference
  /-- What all operands share. -/
  | intersection
deriving DecidableEq, Repr

namespace Operator

/-- The capitalised name. -/
def name : Operator → String
  | .union => "Union"
  | .difference => "Difference"
  | .intersection => "Intersection"

end Operator

end SolidModel
