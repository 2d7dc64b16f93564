import SolidModel.Assembly.Id
import SolidModel.Body.Basic
import SolidModel.Shape

/-!
# Assemblies

The components of a model and the links between them.

An assembly is a table of components, and components speak of each other by id only. So a
link can be made before anyone has thought about what it does to the whole: that no component
ends up below itself is not a property of the data but of the operations, which check before
they link. What is here does not check. `Assembly.link` records a parentage on both sides, and
`Assembly.modify` on an unknown id changes nothing.

There are two ways for a component to use another: as a child, and as an operand of one of its
compositions. A child need not be an operand, nor an operand a child. Children that are
operands take part in the body of their parent through the composition alone;
`Component.uncomposed` lists the others.

## Main definitions

* `Composition`: An operator and the components it combines.
* `Component`: One entry of an assembly.
* `Component.uses`: The components it is made of.
* `Assembly`: A table of components.
* `Assembly.get?`, `Assembly.insert`, `Assembly.modify`, `Assembly.link`: Access.

## Theorems

* `Assembly.get?_insert`: Insertion adds one entry and keeps the others.
* `Assembly.get?_modify`: A modification concerns one entry.
-/

namespace SolidModel

/-- An operator and the components it combines, in order. -/
structure Composition where
  /-- Whether the operands are united, cut away or intersected. -/
  operator : Operator
  /-- What is combined, in order. A component may be named twice. -/
  operands : List ComponentId
deriving DecidableEq, Repr

/-- One entry of an assembly. -/
structure Component where
  /-- The component it moves with. -/
  parent : Option ComponentId := none
  /-- The components that move with it, in the order of their adoption. -/
  children : List ComponentId := []
  /-- The transformations of the component itself, first applied first. -/
  direct : List Transformation := []
  /-- What is combined in it, in order. -/
  compositions : List Composition := []
  /-- The solid it is, if it is one. -/
  shape : Option Shape := none
  /-- The color of its body. -/
  color : Option Color := none
deriving DecidableEq

namespace Component

/-- Every operand of every composition, with repetitions. -/
def composed (c : Component) : List ComponentId := c.compositions.flatMap Composition.operands

/-- The children that are no operands of any composition of their parent. -/
def uncomposed (c : Component) : List ComponentId :=
  c.children.filter fun child => child ∉ c.composed

/-- The components this one is made of. -/
def uses (c : Component) : List ComponentId := c.children ++ c.composed

/-- The component with a further child. A child is listed only once. -/
def adopting (c : Component) (child : ComponentId) : Component :=
  if child ∈ c.children then c else { c with children := c.children ++ [child] }

/-- The component with a further composition. -/
def composing (c : Component) (composition : Composition) : Component :=
  { c with compositions := c.compositions ++ [composition] }

/-- The component under further transformations. -/
def moving (c : Component) (steps : List Transformation) : Component :=
  { c with direct := c.direct ++ steps }

end Component

/-- A table of components, the first of which has id one. -/
structure Assembly where
  /-- In the order of their making, so that the component of id `n` stands in place `n - 1`. -/
  components : Array Component := #[]
deriving DecidableEq

namespace Assembly

/-- The number of components. -/
def size (a : Assembly) : Nat := a.components.size

/-- The component of an id. -/
def get? (a : Assembly) (id : ComponentId) : Option Component :=
  match id.number with
  | 0 => none
  | n + 1 => a.components[n]?

/-- Whether an id names a component. -/
def contains (a : Assembly) (id : ComponentId) : Bool := (a.get? id).isSome

/-- The ids of all components, oldest first. -/
def ids (a : Assembly) : List ComponentId := (List.range a.size).map fun n => ⟨n + 1⟩

/-- The id that the next component will have. -/
def nextId (a : Assembly) : ComponentId := ⟨a.size + 1⟩

/-- The assembly with a further component. -/
def insert (a : Assembly) (c : Component) : Assembly := ⟨a.components.push c⟩

/-- The assembly with one component changed. -/
def modify (a : Assembly) (id : ComponentId) (change : Component → Component) : Assembly :=
  match id.number with
  | 0 => a
  | n + 1 => ⟨a.components.modify n change⟩

/-- The assembly with a parentage recorded on both sides. -/
def link (a : Assembly) (parent child : ComponentId) : Assembly :=
  (a.modify child fun c => { c with parent := some parent }).modify parent fun c =>
    c.adopting child

/-- The parent of a component, if it has one. -/
def parent? (a : Assembly) (id : ComponentId) : Option ComponentId :=
  (a.get? id).bind Component.parent

/-- The components that a component is made of. -/
def uses (a : Assembly) (id : ComponentId) : List ComponentId :=
  match a.get? id with
  | none => []
  | some c => c.uses

@[simp] theorem size_insert (a : Assembly) (c : Component) : (a.insert c).size = a.size + 1 := by
  simp [size, insert]

/-- The new component has the next id, and every other id means what it meant. -/
theorem get?_insert (a : Assembly) (c : Component) (id : ComponentId) :
    (a.insert c).get? id = if id = a.nextId then some c else a.get? id := by
  rcases id with ⟨n⟩
  cases n with
  | zero => simp [get?, nextId]
  | succ n => simp [get?, insert, nextId, size, Array.getElem?_push]

@[simp] theorem size_modify (a : Assembly) (id : ComponentId) (change : Component → Component) :
    (a.modify id change).size = a.size := by
  rcases id with ⟨n⟩
  cases n <;> simp [size, modify]

/-- A modification concerns the component it names and no other. -/
theorem get?_modify (a : Assembly) (id : ComponentId) (change : Component → Component)
    (other : ComponentId) :
    (a.modify id change).get? other =
      if other = id then (a.get? id).map change else a.get? other := by
  rcases id with ⟨n⟩
  rcases other with ⟨m⟩
  cases n with
  | zero =>
      by_cases h : m = 0
      · simp [h, get?]
      · simp [h, modify]
  | succ n =>
      cases m with
      | zero => simp [get?]
      | succ m =>
          by_cases h : m = n
          · simp [h, get?, modify, Array.getElem?_modify]
          · have h' : n ≠ m := fun e => h e.symm
            simp [h, h', get?, modify, Array.getElem?_modify]

/-- An id names a component if it lies between one and the number of components. -/
theorem contains_iff (a : Assembly) (id : ComponentId) :
    a.contains id = true ↔ id ∈ a.ids := by
  rcases id with ⟨n⟩
  cases n with
  | zero => simp [contains, get?, ids]
  | succ n => simp [contains, get?, ids, size]

end Assembly

end SolidModel
