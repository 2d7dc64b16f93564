import Mathlib.Data.List.Induction
import SolidModel.Body.Basic

/-!
# Leaves of Bodies

What a body consists of, once the ways of combining it are forgotten.

A leaf is a primitive together with the transformations that stand directly around it, one around
the other with nothing in between. `Body.leaf?` reads a body as a single leaf, which it is if there
is nothing in it but wrappers and the primitive. The leaves of any other body are those of its
parts, from left to right. A wrapper around a body that is no leaf belongs to no leaf at all, and
`Body.MovesLeaves` says that a body has no such wrapper.

## Main definitions

* `Leaf`: A primitive and the transformations directly around it.
* `Body.leaf?`: A body as a single leaf.
* `Body.leaves`: The leaves of a body, from left to right.
* `Body.MovesLeaves`: Nothing but leaves is moved.

## Theorems

* `Body.leaf?_wrap`: A wrapped primitive is a leaf.
* `Body.length_leaves`: There are as many leaves as primitives.
-/

namespace SolidModel

/-- A primitive and the transformations directly around it, innermost first. -/
structure Leaf where
  /-- The primitive itself. -/
  solid : Primitive
  /-- The wrappers up to the first node of another kind, innermost first. -/
  steps : List Transformation
deriving DecidableEq

namespace Body

/-- The body as a single leaf, if it is one. -/
def leaf? : Body → Option Leaf
  | .primitive solid => some ⟨solid, []⟩
  | .moved step child => (leaf? child).map fun leaf => ⟨leaf.solid, leaf.steps ++ [step]⟩
  | .composition _ _ => none
  | .colored _ _ => none

mutual

/-- The leaves of a body, from left to right. -/
def leaves : Body → List Leaf
  | .primitive solid => [⟨solid, []⟩]
  | .composition _ operands => leavesOfAll operands
  | .moved step child =>
    match leaf? child with
    | none => leaves child
    | some leaf => [⟨leaf.solid, leaf.steps ++ [step]⟩]
  | .colored _ child => leaves child

/-- The leaves of several bodies, from left to right. -/
def leavesOfAll : List Body → List Leaf
  | [] => []
  | body :: rest => leaves body ++ leavesOfAll rest

end

mutual

/-- Every wrapper of a body belongs to a leaf: nothing but a primitive, or a primitive that is
    wrapped already, is ever moved. -/
def MovesLeaves : Body → Prop
  | .primitive _ => True
  | .composition _ operands => AllMoveLeaves operands
  | .moved _ child => (leaf? child).isSome = true
  | .colored _ child => MovesLeaves child

/-- Every wrapper of several bodies belongs to a leaf. -/
def AllMoveLeaves : List Body → Prop
  | [] => True
  | body :: rest => MovesLeaves body ∧ AllMoveLeaves rest

end

theorem leavesOfAll_eq (bodies : List Body) : leavesOfAll bodies = bodies.flatMap leaves := by
  induction bodies with
  | nil => rfl
  | cons body rest ih => rw [leavesOfAll, ih, List.flatMap_cons]

theorem allMoveLeaves_iff (bodies : List Body) :
    AllMoveLeaves bodies ↔ ∀ body ∈ bodies, MovesLeaves body := by
  induction bodies with
  | nil => exact iff_of_true trivial fun _ h => absurd h List.not_mem_nil
  | cons body rest ih => rw [AllMoveLeaves, ih, List.forall_mem_cons]

/-- A body that is a leaf has no other leaves. -/
theorem leaves_of_leaf? {body : Body} {leaf : Leaf} (h : body.leaf? = some leaf) :
    body.leaves = [leaf] ∧ body.MovesLeaves := by
  cases body with
  | primitive solid =>
      rw [leaf?, Option.some.injEq] at h
      rw [leaves, h]
      exact ⟨rfl, trivial⟩
  | composition operator operands =>
      exact absurd h (by simp only [leaf?, reduceCtorEq, not_false_eq_true])
  | moved step child =>
      rw [leaf?, Option.map_eq_some_iff] at h
      rcases h with ⟨inner, hinner, rfl⟩
      simp only [leaves, MovesLeaves, hinner, Option.isSome_some, and_self]
  | colored color child =>
      exact absurd h (by simp only [leaf?, reduceCtorEq, not_false_eq_true])

/-- A wrapped primitive is a leaf under the transformations that it is wrapped in, in the order in
    which they were wrapped around it. -/
theorem leaf?_wrap (solid : Primitive) (steps : List Transformation) :
    ((Body.primitive solid).wrap steps).leaf? = some ⟨solid, steps⟩ := by
  induction steps using List.reverseRecOn with
  | nil => rfl
  | append_singleton steps step ih =>
      rw [wrap] at ih
      rw [wrap, List.foldl_append, List.foldl_cons, List.foldl_nil, leaf?, ih, Option.map_some]

theorem leaves_paint (body : Body) (color : Option Color) :
    (body.paint color).leaves = body.leaves := by
  cases color <;> rfl

theorem movesLeaves_paint {body : Body} (h : body.MovesLeaves) (color : Option Color) :
    (body.paint color).MovesLeaves := by
  cases color <;> exact h

mutual

/-- There are as many leaves as primitives. -/
theorem length_leaves (body : Body) : body.leaves.length = body.primitiveCount := by
  cases body with
  | primitive solid => rfl
  | composition operator operands => exact length_leavesOfAll operands
  | moved step child =>
      rw [leaves, primitiveCount]
      have hchild := length_leaves child
      split
      · exact hchild
      · next leaf h =>
          -- A child that is a leaf is counted as one, with or without the wrapper.
          rw [(leaves_of_leaf? h).1] at hchild
          exact hchild
  | colored color child => exact length_leaves child

theorem length_leavesOfAll (bodies : List Body) :
    (leavesOfAll bodies).length = primitiveCountAll bodies := by
  cases bodies with
  | nil => rfl
  | cons body rest =>
      rw [leavesOfAll, primitiveCountAll, List.length_append, length_leaves body,
        length_leavesOfAll rest]

end

end Body

end SolidModel
