import SolidModel.Assembly.Edit
import SolidModel.Assembly.Reach

/-!
# Adoption

Making a component the child of another.

Two things can stand in the way. The child may belong to another parent, and then it stays
there. Or the child is, in some way, already made of its parent-to-be, and the link would
close a circle. Of circles there are two reports. One that runs along parents alone is told
first, although every such circle is one of the other kind too; it is the plainer thing to
say.

The checks change nothing and come first, so that links are only made where they may be.

## Main definitions

* `Assembly.checkFree`: A component has no parent.
* `Assembly.checkAbove`: A parent does not stand below its child.
* `Assembly.checkUse`: A component may be made of another.
* `Assembly.checkAdoption`: A parent may adopt a child.
* `Edit.addChild`, `Edit.addChildren`, `Edit.setParent`: Adoption.
-/

namespace SolidModel

namespace Assembly

/-- A component has to be known. -/
def checkKnown (a : Assembly) (id : ComponentId) : Except AssemblyError Unit :=
  (a.find id).map fun _ => ()

/-- A component that is to become part of a new one must not have a parent. -/
def checkFree (a : Assembly) (child : ComponentId) : Except AssemblyError Unit := do
  let c ← a.find child
  match c.parent with
  | none => .ok ()
  | some current => .error (.alreadyOwned child current)

/-- A parent must not be its own child or stand below it. -/
def checkAbove (a : Assembly) (parent child : ComponentId) : Except AssemblyError Unit :=
  if parent = child ∨ child ∈ a.ancestors parent then .error (.cyclicParent child parent)
  else .ok ()

/-- A component must not be made of something that is made of it. -/
def checkUse (a : Assembly) (component operand : ComponentId) : Except AssemblyError Unit :=
  if a.dependsOn operand component then .error (.cyclicUse component operand) else .ok ()

/-- A child must not be taken from another parent, which is told before it is refused. -/
def checkOwner (child parent : ComponentId) : Option ComponentId → Logged AssemblyError Unit
  | none => pure ()
  | some current =>
    if current = parent then pure ()
    else do
      Logged.note (.moveRefused child current parent)
      Logged.ofExcept (.error (.alreadyOwned child current))

/-- Everything that has to hold for a parent to adopt a child. -/
def checkAdoption (a : Assembly) (parent child : ComponentId) : Logged AssemblyError Unit := do
  let c ← Logged.ofExcept (a.find child)
  Logged.ofExcept (a.checkKnown parent)
  checkOwner child parent c.parent
  Logged.ofExcept (a.checkAbove parent child)
  Logged.ofExcept (a.checkUse parent child)

/-- The assembly with several children linked to a parent in order. -/
def linkAll (a : Assembly) (parent : ComponentId) (children : List ComponentId) : Assembly :=
  children.foldl (fun a child => a.link parent child) a

end Assembly

namespace Edit

/-- Several children linked to a parent in order. -/
def linkAll (parent : ComponentId) (children : List ComponentId) : Edit Unit :=
  change fun a => a.linkAll parent children

/-- A parent adopts a child. It may have it already. -/
def addChild (parent child : ComponentId) : Edit Unit := do
  ask fun a => a.checkAdoption parent child
  link parent child

/-- A parent adopts children one after another, up to the first that it may not have. -/
def addChildren (parent : ComponentId) : List ComponentId → Edit Unit
  | [] => pure ()
  | child :: rest => do
    addChild parent child
    addChildren parent rest

/-- A child is given a parent. -/
def setParent (child parent : ComponentId) : Edit Unit := addChild parent child

end Edit

end SolidModel
