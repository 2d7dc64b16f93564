import SolidModel.Assembly.Adopt

/-!
# Creation

New components, alone or with links to what is there.

A new component nobody knows can close a circle only between its own parent and what it is made
of. So without a parent there is nothing to check but that everything named exists and that
the children are free; with one, neither children nor operands may be made of the parent.
Everything is checked before the component comes into being.

## Main definitions

* `Draft`: What a new component is to be.
* `Assembly.checkDraft`: Whether it may be.
* `Edit.create`, `Edit.add`, `Edit.container`: Creation.
-/

namespace SolidModel

/-- What a new component is to be. -/
structure Draft where
  /-- The solid that it is to be, if any. -/
  shape : Option Shape := none
  /-- The color of its body, if any. -/
  color : Option Color := none
  /-- The component that is to adopt it, if any. -/
  parent : Option ComponentId := none
  /-- What it is to adopt, in order. -/
  children : List ComponentId := []
  /-- What is to be combined in it, in order. -/
  compositions : List Composition := []
deriving DecidableEq

namespace Draft

/-- Every operand of every composition, with repetitions. -/
def composed (draft : Draft) : List ComponentId :=
  draft.compositions.flatMap Composition.operands

/-- The component before any link is made. -/
def component (draft : Draft) : Component :=
  { shape := draft.shape, color := draft.color, compositions := draft.compositions }

end Draft

namespace Assembly

/-- Everything that has to hold for a draft to become a component. -/
def checkDraft (a : Assembly) (draft : Draft) : Except AssemblyError Unit := do
  draft.children.forM a.checkFree
  match draft.parent with
  | none => draft.composed.forM a.checkKnown
  | some parent =>
    a.checkKnown parent
    draft.children.forM (a.checkAbove parent)
    draft.composed.forM a.checkKnown
    (draft.children ++ draft.composed).forM (a.checkUse parent)

end Assembly

namespace Edit

/-- A new component as drafted. Its parent is linked to it before its children are. -/
def create (draft : Draft) : Edit ComponentId := do
  read fun a => a.checkDraft draft
  let id ← insert draft.component
  match draft.parent with
  | none => pure ()
  | some parent => link parent id
  linkAll id draft.children
  pure id

/-- A new component with a shape and nothing else. -/
def add (shape : Shape) : Edit ComponentId := insert { shape := some shape }

/-- A new component with nothing at all. -/
def container : Edit ComponentId := insert {}

end Edit

end SolidModel
