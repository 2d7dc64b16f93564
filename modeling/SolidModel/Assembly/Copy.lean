import SolidModel.Assembly.Placement

/-!
# Copies

Copying a component with everything it owns.

A copy has the shape, the color and the transformations of its source. Its children are new:
each is a copy of a child, made once, and wherever a composition names the child the copy names
that copy. The other operands belong to somebody else. A plain copy shares them with its
source, and it joins the parent of its source, so that it stands where the source stands. An
isolated copy has copies of them instead and no parent; nothing it is made of is shared with
what was there before. Copies made along the way are always isolated, since they get their
parents from the copy they are made for.

As for bodies, the recursion has a depth that a table without cycles never uses up.

## Main definitions

* `Edit.copyWithin`: A copy, made down to a depth.
* `Edit.copy`: A copy.
-/

namespace SolidModel

namespace Component

/-- The part of a component that a copy has from the start. -/
def copied (c : Component) : Component :=
  { direct := c.direct, shape := c.shape, color := c.color }

end Component

namespace Edit

/-- A copy of a component. Below the given depth no component is found. -/
def copyWithin : Nat → ComponentId → Bool → Edit ComponentId
  | 0, id, _ => read fun _ => .error (.unknown id)
  | depth + 1, id, isolated => do
    let source ← read fun a => a.find id
    let copy ← insert source.copied
    -- A plain copy joins the parent before it has anything below it.
    match isolated, source.parent with
    | false, some parent => link parent copy
    | _, _ => pure ()
    let copies ← source.children.mapM fun child => do
      let childCopy ← copyWithin depth child true
      link copy childCopy
      pure (child, childCopy)
    source.compositions.forM fun composition => do
      let operands ← composition.operands.mapM fun operand =>
        match copies.lookup operand with
        | some childCopy => pure childCopy
        | none => if isolated then copyWithin depth operand true else pure operand
      change fun a => a.modify copy fun c => c.composing ⟨composition.operator, operands⟩
    note (.copied id copy isolated)
    pure copy

/-- A copy of a component. -/
def copy (id : ComponentId) (isolated : Bool) : Edit ComponentId := fun a =>
  copyWithin (a.size + 1) id isolated a

end Edit

end SolidModel
