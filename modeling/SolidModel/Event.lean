import SolidModel.Assembly.Id
import SolidModel.Connector.Basic
import SolidModel.Operator
import SolidModel.Transformation.Basic

/-!
# Events

What an operation tells about its course.

Alignments fall back from one axis to another, edits are refused, compositions are recorded
somewhere the caller has to learn about. Each such turn is an event. Events are data: an
operation returns them beside its result, in the order in which they happened, and their
wording is a function of theirs that no result depends on.

## Main definitions

* `Event`: One turn in the course of an operation.
* `Event.level`, `Event.message`: How it is reported.
-/

namespace SolidModel

/-- How much detail an event is. -/
inductive Level where
  | debug
  | trace
deriving DecidableEq, Repr

namespace Level

/-- The name of the level. -/
def name : Level → String
  | .debug => "DEBUG"
  | .trace => "TRACE"

end Level

/-- The part of an alignment that a step takes care of. -/
inductive AlignStage where
  /-- Bringing the axes together. -/
  | axis
  /-- Bringing the normals together. -/
  | roll
  /-- Bringing the points together. -/
  | offset
deriving DecidableEq, Repr

namespace AlignStage

/-- The name of the stage. -/
def name : AlignStage → String
  | .axis => "axis"
  | .roll => "roll"
  | .offset => "translation"

end AlignStage

/-- One turn in the course of an operation. -/
inductive Event where
  /-- The two vectors to be aligned lie on one line, so another one is tried for the axis. -/
  | colinear (inclined reference fallback : Vec3)
  /-- The other vector lies on that line too, so any perpendicular has to do. -/
  | fallbackColinear (fallback : Vec3)
  /-- An alignment takes a step. -/
  | alignStep (source : Connector) (stage : AlignStage) (step : Transformation)
  /-- A child is not taken from its parent. -/
  | moveRefused (child current parent : ComponentId)
  /-- An operand is refused because it depends on the component it would be part of. -/
  | cycleRefused (component operand : ComponentId)
  /-- A composition is recorded. -/
  | composed (operator : Operator) (operands : List ComponentId) (target : ComponentId)
  /-- A component has been copied. -/
  | copied (source copy : ComponentId) (isolated : Bool)
deriving DecidableEq

namespace Event

/-- The level of an event. Only the search for an axis is a matter of tracing. -/
def level : Event → Level
  | .colinear .. => .trace
  | .fallbackColinear .. => .trace
  | _ => .debug

/-- The wording of an event. -/
def message : Event → String
  | .colinear inclined reference fallback =>
    inclined.display ++ " and " ++ reference.display ++ " are colinear; trying "
      ++ fallback.display
  | .fallbackColinear fallback =>
    fallback.display ++ " is colinear too; using an arbitrary normal"
  | .alignStep source stage step =>
    "align " ++ source.display ++ ": " ++ stage.name ++ " step " ++ step.record
  | .moveRefused child current parent =>
    "refusing to move " ++ child.record ++ " from " ++ current.record ++ " to " ++ parent.record
  | .cycleRefused component operand =>
    "refusing to compose " ++ component.record ++ " with " ++ operand.record
      ++ ", which depends on it"
  | .composed operator operands target =>
    operator.name ++ " of " ++ ComponentId.listRecord operands ++ " recorded on "
      ++ target.record
  | .copied source copy isolated =>
    "copied " ++ source.record ++ " to " ++ copy.record ++ " (isolated: "
      ++ toString isolated ++ ")"

end Event

end SolidModel
