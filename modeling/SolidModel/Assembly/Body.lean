import SolidModel.Assembly.Placement

/-!
# Bodies of Components

The geometry of a component, as one expression.

A body starts from what the component has without compositions: its shape where it stands, and
the bodies of its uncomposed children. A shape alone is its own body; as soon as there are such
children, shape and children are united. Every composition then wraps what there is so far,
which becomes its first operand. If there is nothing so far, the first composition starts the
body. A component with nothing at all has no body.

Children and operands stand under histories of their own, so a body is never moved as a whole.

The recursion follows the links of the table, and a depth keeps it in bounds. On a table
without cycles no way down is longer than the table, and the depth is never used up.

## Main definitions

* `Assembly.bodyWithin`: The body of a component, looked for down to a depth.
* `Assembly.body`: The body of a component.
-/

namespace SolidModel

namespace Assembly

/-- What a body starts from: a shape alone is itself, and with children they are united. -/
def base (own : Option Body) : List Body → Option Body
  | [] => own
  | child :: rest => some (.composition .union (own.toList ++ child :: rest))

/-- What there is so far, wrapped in a composition with further operands. -/
def enclose (operator : Operator) (soFar : Option Body) (operands : List Body) : Body :=
  .composition operator (soFar.toList ++ operands)

/-- The body of a component. Below the given depth no component is found. -/
def bodyWithin (a : Assembly) : Nat → ComponentId → Except AssemblyError Body
  | 0, id => .error (.unknown id)
  | depth + 1, id => do
    let c ← a.find id
    let own := c.shape.map fun shape => a.place id (.primitive shape.primitive)
    let children ← c.uncomposed.mapM (a.bodyWithin depth)
    let composed ← c.compositions.foldlM (fun soFar composition => do
      let operands ← composition.operands.mapM (a.bodyWithin depth)
      pure (some (enclose composition.operator soFar operands))) (base own children)
    match composed with
    | none => .error (.noBody id)
    | some body => .ok (body.paint c.color)

/-- The body of a component. -/
def body (a : Assembly) (id : ComponentId) : Except AssemblyError Body :=
  a.bodyWithin (a.size + 1) id

end Assembly

end SolidModel
