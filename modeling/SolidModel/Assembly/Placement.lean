import SolidModel.Assembly.Cursor
import SolidModel.Assembly.Edit
import SolidModel.Assembly.Reach

/-!
# Placement

Where components stand.

A component stands where its own transformations put it, within where those of its parent put
that, and so on. Its history is all of them in the order of their application: its own first,
then those of its ancestors, nearest first. Nothing is stored but the transformations of each
component itself, so to move a component is to move everything below it.

Whoever asks for the history gets it through a cursor, step by step.

## Main definitions

* `Assembly.history`: The transformations a component stands under.
* `Assembly.cursor?`, `Assembly.transformations`: The same for those who ask.
* `Assembly.anchor`: The connector of a component at an anchor.
* `Edit.transform`, `Edit.setColor`: Changes to one component.
-/

namespace SolidModel

variable [Trigonometry]

namespace Assembly

/-- The transformations of a component itself. -/
def direct (a : Assembly) (id : ComponentId) : List Transformation :=
  match a.get? id with
  | none => []
  | some c => c.direct

/-- The transformations a component stands under, first applied first: its own, and then those of
    its ancestors, the nearest one first. -/
def history (a : Assembly) (id : ComponentId) : List Transformation :=
  (id :: a.ancestors id).flatMap a.direct

/-- The cursor at the beginning of a component, which has to be known. -/
def cursor? (a : Assembly) (id : ComponentId) : Except AssemblyError Cursor :=
  (a.find id).map fun c => ⟨some c, 0⟩

/-- The transformations a component stands under, which has to be known. -/
def transformations (a : Assembly) (id : ComponentId) :
    Except AssemblyError (List Transformation) :=
  (a.cursor? id).map fun cursor => cursor.collect a a.size

/-- A connector carried along with a component. -/
def carry (a : Assembly) (id : ComponentId) (c : Connector) : Except PlacementError Connector :=
  c.moveAll (a.history id)

/-- A body placed as a component is. -/
def place (a : Assembly) (id : ComponentId) (body : Body) : Body := body.wrap (a.history id)

/-- The connector of a component at an anchor, where the component stands. -/
def anchor (a : Assembly) (id : ComponentId) (anchor : Anchor) :
    Except AssemblyError Connector := do
  let c ← a.find id
  match c.shape with
  | none => .error (.noAnchor id anchor)
  | some shape =>
    match ← (shape.anchor anchor).mapError .vector with
    | none => .error (.noAnchor id anchor)
    | some seat => (a.carry id seat).mapError .placement

end Assembly

namespace Edit

/-- A change to one component, which has to be known. -/
def update (id : ComponentId) (f : Component → Component) : Edit Unit := do
  let _ ← read fun a => a.find id
  change fun a => a.modify id f

/-- A component is moved, after all it was moved before. -/
def transform (id : ComponentId) (steps : List Transformation) : Edit Unit :=
  update id fun c => c.moving steps

/-- A component gets a color, or loses it. -/
def setColor (id : ComponentId) (color : Option Color) : Edit Unit :=
  update id fun c => { c with color }

end Edit

end SolidModel
