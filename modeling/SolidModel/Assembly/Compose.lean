import SolidModel.Assembly.Adopt
import SolidModel.Assembly.Copy

/-!
# Composition

Combining components by an operator.

There are three choices. A composition is recorded on the component it is asked of, or on a new
one that has the first as its last operand. It uses the operands themselves or isolated copies
of them. And the component that records it adopts the operands or leaves them where they are.

Recorded in place, a composition must not use anything that is made of the component. A new
component cannot close a circle, and there it is enough that operands to be adopted are free.

Copies are made before the check, since it is the copies that have to pass it.

## Main definitions

* `ComposeMode`: The three choices.
* `Edit.compose`: A composition.
* `Edit.union`, `Edit.difference`, `Edit.intersection`: The usual ones.
-/

namespace SolidModel

/-- How a composition is to be recorded. -/
structure ComposeMode where
  /-- Whether isolated copies stand in for all components involved. -/
  copies : Bool := false
  /-- Whether it is recorded on the component itself, rather than on a new one. -/
  inPlace : Bool := true
  /-- Whether the operands become children. -/
  adopts : Bool := true
deriving DecidableEq, Repr

namespace Assembly

/-- The component must not be used by any of its operands. The first that uses it is told. -/
def checkOperands (a : Assembly) (id : ComponentId) (operands : List ComponentId) :
    Logged AssemblyError Unit :=
  match operands.find? fun operand => a.dependsOn operand id with
  | none => pure ()
  | some operand => do
    Logged.note (.cycleRefused id operand)
    Logged.ofExcept (.error (.cyclicUse id operand))

/-- Everything that has to hold for a composition on a component. -/
def checkInPlace (a : Assembly) (id : ComponentId) (operands : List ComponentId) (adopts : Bool) :
    Logged AssemblyError Unit := do
  a.checkOperands id operands
  if adopts then operands.forM (a.checkAdoption id) else pure ()

end Assembly

namespace Edit

/-- The components themselves, or isolated copies of them. -/
def involved (copies : Bool) (ids : List ComponentId) : Edit (List ComponentId) :=
  if copies then ids.mapM fun id => copy id true else pure ids

/-- What follows once a composition is recorded: it is told, and operands are adopted. -/
def conclude (target : ComponentId) (composition : Composition) (adopts : Bool) :
    Edit ComponentId := do
  note (.composed composition.operator composition.operands target)
  if adopts then linkAll target composition.operands else pure ()
  pure target

/-- A composition recorded on a component. -/
def composeOn (id : ComponentId) (composition : Composition) (adopts : Bool) :
    Edit ComponentId := do
  ask fun a => a.checkInPlace id composition.operands adopts
  change fun a => a.modify id fun c => c.composing composition
  conclude id composition adopts

/-- A composition recorded on a new component. -/
def composeNew (composition : Composition) (adopts : Bool) : Edit ComponentId := do
  if adopts then read fun a => composition.operands.forM a.checkFree else pure ()
  let target ← insert { compositions := [composition] }
  conclude target composition adopts

/-- A component combined with operands. The result is the component that records it. -/
def compose (id : ComponentId) (operator : Operator) (operands : List ComponentId)
    (mode : ComposeMode) : Edit ComponentId := do
  read fun a => a.checkKnown id
  read fun a => operands.forM a.checkKnown
  let others ← involved mode.copies operands
  if mode.inPlace then composeOn id ⟨operator, others⟩ mode.adopts
  else
    let receiver ← involved mode.copies [id]
    composeNew ⟨operator, others ++ receiver⟩ mode.adopts

/-- The usual union: in place, of the components themselves, which are adopted. -/
def union (id : ComponentId) (operands : List ComponentId) : Edit ComponentId :=
  compose id .union operands {}

/-- The usual difference. -/
def difference (id : ComponentId) (operands : List ComponentId) : Edit ComponentId :=
  compose id .difference operands {}

/-- The usual intersection. -/
def intersection (id : ComponentId) (operands : List ComponentId) : Edit ComponentId :=
  compose id .intersection operands {}

end Edit

end SolidModel
