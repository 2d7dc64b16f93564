import SolidModel.Assembly.Basic
import SolidModel.Connector.Motion

/-!
# Assembly Errors

Why a question to an assembly has no answer, and why a change to it is refused.

## Main definitions

* `AssemblyError`: The causes.
* `AssemblyError.message`: Their wording.
* `Assembly.find`: The component of an id, or the report that there is none.
-/

namespace SolidModel

/-- Why an assembly refuses something. -/
inductive AssemblyError where
  /-- A child has another parent already. -/
  | alreadyOwned (child current : ComponentId)
  /-- A parent is its own child or stands below it. -/
  | cyclicParent (child parent : ComponentId)
  /-- A component would be made of something that is made of it. -/
  | cyclicUse (component operand : ComponentId)
  /-- A component has no shape and is made of nothing. -/
  | noBody (id : ComponentId)
  /-- An id names no component. -/
  | unknown (id : ComponentId)
  /-- A component has no shape, or one without this anchor. -/
  | noAnchor (component : ComponentId) (anchor : Anchor)
  /-- A transformation cannot be applied. -/
  | placement (cause : PlacementError)
  /-- A vector is degenerate. -/
  | vector (cause : Degeneracy)
deriving DecidableEq

namespace AssemblyError

/-- The wording of the report. -/
def message : AssemblyError → String
  | .alreadyOwned child current =>
    "component " ++ child.record ++ " already has parent " ++ current.record
  | .cyclicParent child parent =>
    "component " ++ child.record ++ " cannot be a child of its descendant " ++ parent.record
  | .cyclicUse component operand =>
    "component " ++ operand.record ++ " depends on " ++ component.record
      ++ " and cannot be part of it"
  | .noBody id => "component " ++ id.record ++ " has no body"
  | .unknown id => "unknown component " ++ id.record
  | .noAnchor component anchor =>
    "component " ++ component.record ++ " has no " ++ anchor.name ++ " anchor"
  | .placement cause => cause.message
  | .vector cause => cause.message

end AssemblyError

namespace Assembly

/-- The component of an id, which has to name one. -/
def find (a : Assembly) (id : ComponentId) : Except AssemblyError Component :=
  match a.get? id with
  | none => .error (.unknown id)
  | some c => .ok c

end Assembly

end SolidModel
