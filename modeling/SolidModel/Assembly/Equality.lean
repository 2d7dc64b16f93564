import SolidModel.Assembly.Placement

/-!
# Structural Equality

When two components are built the same way.

They are if they have the same shape, stand under close transformations, and have children and
compositions that pair off. Neither order nor identity matters below: children pair off with
children, compositions with compositions and their operands with operands in whatever order
they were given. Parents and colors do not count.

To pair off is to go through one list and to take, for each element, the first one left of the
other list that equals it. Where equality is transitive this finds a pairing whenever there is
one. Lists of different lengths never pair off, and saying so first is worth the while: to find
it out from the elements could mean to walk everything below them, as often as there are ways
to get there.

## Main definitions

* `removeFirst?`: A list without its first element of a kind.
* `pairsUp`: Whether the elements of two lists pair off.
* `pairsOff`: Whether two lists pair off, their lengths being looked at first.
* `Assembly.structurallyEqual`: Whether two components are built the same way.

## Theorems

* `pairsOff_eq`: Looking at the lengths first makes no difference.
-/

namespace SolidModel

/-- The list without the first element that satisfies a test, if one does. -/
def removeFirst? {α : Type} (test : α → Bool) : List α → Option (List α)
  | [] => none
  | a :: rest =>
    if test a then some rest else (removeFirst? test rest).map fun others => a :: others

/-- Whether every element of one list finds an equal one of the other, and none is left. -/
def pairsUp {α β : Type} (equal : α → β → Bool) : List α → List β → Bool
  | [], right => right.isEmpty
  | a :: rest, right =>
    match removeFirst? (equal a) right with
    | none => false
    | some others => pairsUp equal rest others

/-- Whether two lists are of one length and their elements pair off. -/
def pairsOff {α β : Type} (equal : α → β → Bool) (left : List α) (right : List β) : Bool :=
  left.length == right.length && pairsUp equal left right

/-- To remove an element makes a list shorter by one. -/
theorem length_of_removeFirst? {α : Type} {test : α → Bool} {l others : List α}
    (h : removeFirst? test l = some others) : l.length = others.length + 1 := by
  induction l generalizing others with
  | nil => exact absurd h (by simp [removeFirst?])
  | cons a rest ih =>
      unfold removeFirst? at h
      split at h
      · simp only [Option.some.injEq] at h
        rw [h, List.length_cons]
      · simp only [Option.map_eq_some_iff] at h
        rcases h with ⟨tail, ht, heq⟩
        rw [← heq, List.length_cons, List.length_cons, ih ht]

/-- Lists whose elements pair off are of one length. -/
theorem length_eq_of_pairsUp {α β : Type} {equal : α → β → Bool} {left : List α}
    {right : List β} (h : pairsUp equal left right = true) : left.length = right.length := by
  induction left generalizing right with
  | nil =>
      rw [pairsUp, List.isEmpty_iff] at h
      rw [h]
      rfl
  | cons a rest ih =>
      unfold pairsUp at h
      split at h
      · exact absurd h Bool.false_ne_true
      · next others ho => rw [length_of_removeFirst? ho, List.length_cons, ih h]

/-- Looking at the lengths first makes no difference to the answer. -/
theorem pairsOff_eq {α β : Type} (equal : α → β → Bool) (left : List α) (right : List β) :
    pairsOff equal left right = pairsUp equal left right := by
  unfold pairsOff
  cases h : pairsUp equal left right with
  | false => exact Bool.and_false _
  | true => rw [length_eq_of_pairsUp h, beq_self_eq_true, Bool.and_true]

namespace Assembly

/-- Whether two components are built the same way. Below the given depth none is. -/
def structurallyEqualWithin (a : Assembly) : Nat → ComponentId → ComponentId → Bool
  | 0, _, _ => false
  | depth + 1, x, y =>
    if x = y then a.contains x
    else
      match a.get? x, a.get? y with
      | some left, some right =>
        sameOption Shape.same left.shape right.shape
          && Transformation.isCloseList (a.history x) (a.history y)
          && pairsOff (a.structurallyEqualWithin depth) left.children right.children
          && pairsOff (fun p q => p.operator == q.operator
              && pairsOff (a.structurallyEqualWithin depth) p.operands q.operands)
            left.compositions right.compositions
      | _, _ => false

/-- Whether two components are built the same way. -/
def structurallyEqual (a : Assembly) (x y : ComponentId) : Bool :=
  a.structurallyEqualWithin (a.size + 1) x y

end Assembly

end SolidModel
