import SolidModel.Assembly.Basic

/-!
# Cursors

The transformations that a component stands under, one at a time.

A cursor stands on a component, between two of its transformations. It gives out those that are
left there one by one, and when there are none it climbs to the parent and stands before the first
one. On a component without transformations it gives out nothing before it climbs, so that one
look may lead past several components. Above the last parent it has ended.

Nothing is collected in advance, and whoever wants only the first few transformations does not
walk any further. A cursor ends on every table of components without a cycle of parents. To
collect all that it gives out on any table, there is a bound on how often it may climb.

## Main definitions

* `Cursor`: A place among the transformations of a component and its ancestors.
* `Cursor.turn`: What happens next.
* `Cursor.collect`: All that a cursor gives out.
* `Assembly.cursor`: The cursor at the beginning of a component.
-/

namespace SolidModel

/-- A place among the transformations of a component and its ancestors. -/
structure Cursor where
  /-- The component it stands on, until it has ended. -/
  component : Option Component
  /-- How many transformations of that component it has given out. -/
  index : Nat := 0

namespace Cursor

/-- What happens next to a cursor. -/
inductive Turn where
  /-- There is nothing left. -/
  | ended
  /-- A transformation is given out. -/
  | gives (step : Transformation) (next : Cursor)
  /-- The component is done with. -/
  | climbs (next : Cursor)

/-- What happens next to a cursor that goes through the components of an assembly. -/
def turn (a : Assembly) (cursor : Cursor) : Turn :=
  match cursor.component with
  | none => .ended
  | some c =>
    match c.direct[cursor.index]? with
    | some step => .gives step ⟨some c, cursor.index + 1⟩
    | none => .climbs ⟨c.parent.bind a.get?, 0⟩

/-- The number of transformations that a cursor has before it on its component. -/
def ahead (cursor : Cursor) : Nat :=
  (cursor.component.elim 0 fun c => c.direct.length) - cursor.index

/-- What is given out is ahead no more. -/
theorem ahead_lt {a : Assembly} {cursor next : Cursor} {step : Transformation}
    (h : cursor.turn a = .gives step next) : next.ahead < cursor.ahead := by
  unfold turn at h
  split at h
  · exact absurd h (by simp)
  · next c hc =>
      split at h
      · next t ht =>
          rw [List.getElem?_eq_some_iff] at ht
          rcases ht with ⟨hlt, _⟩
          simp only [Turn.gives.injEq] at h
          rw [← h.2, ahead, ahead, hc]
          simp only [Option.elim_some]
          omega
      · exact absurd h (by simp)

/-- All that a cursor gives out if it climbs at most `bound` times. -/
def collect (a : Assembly) (bound : Nat) (cursor : Cursor) : List Transformation :=
  match _h : cursor.turn a with
  | .ended => []
  | .gives step next => step :: collect a bound next
  | .climbs next =>
    match bound with
    | 0 => []
    | bound + 1 => collect a bound next
termination_by (bound, cursor.ahead)
decreasing_by
  · exact Prod.Lex.right _ (ahead_lt _h)
  · exact Prod.Lex.left _ _ (Nat.lt_succ_self _)

end Cursor

namespace Assembly

/-- The cursor at the beginning of what an id names, which may be nothing. -/
def cursor (a : Assembly) (id : ComponentId) : Cursor := ⟨a.get? id, 0⟩

end Assembly

end SolidModel
