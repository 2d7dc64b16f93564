import SolidModel.Proofs.Assembly.Depth

/-!
# Lineages

The components above a component, and what a cursor makes of them.

The lineage of a component is the component itself and its ancestors, nearest first. In a
well-formed assembly nobody is met twice on the way up, and the part of a lineage that begins with
one of its members is the lineage of that member. So a lineage can be cut at a component in one way
only, and it is known what is above the cut.

The history of a component is what the members of its lineage have been through, put together. A
cursor never sees it as a whole. `Cursor.Gives` says what it gives out, turn by turn, without any
bound: a cursor that climbs forever gives out no list at all. On a component it gives out what is
left there and then what the parent's cursor gives out, and since every lineage ends, that comes to
the history.

## Main definitions

* `Assembly.lineage`: A component and its ancestors.
* `Cursor.Gives`: A cursor gives out a list and has ended.
* `Assembly.TellsHistory`: The cursors of a component give out its history.

## Theorems

* `Assembly.WellFormed.parent_induction`: Induction along parents.
* `Assembly.WellFormed.nodup_lineage`: Nobody is met twice on the way up.
* `Assembly.WellFormed.eq_ancestors_of_lineage_eq`: What is above a cut.
* `Cursor.collect_eq`: To collect is to put transformations together.
* `Assembly.WellFormed.gives_iff`: A cursor gives out the history and nothing else.
* `Assembly.WellFormed.collect_eq_history`: Collecting it never stops short.
-/

namespace SolidModel

open Relation

/-- Above the last component there is nothing. -/
theorem Assembly.chain_none (a : Assembly) (bound : Nat) : a.chain bound none = [] := by
  cases bound <;> rfl

namespace Cursor

variable {a : Assembly} {cursor : Cursor} {steps steps' : List Transformation}

/-- The cursor gives out these transformations, in this order, and then has ended. -/
inductive Gives (a : Assembly) : Cursor → List Transformation → Prop
  | ended {cursor : Cursor} (h : cursor.turn a = .ended) : Gives a cursor []
  | gives {cursor next : Cursor} {step : Transformation} {rest : List Transformation}
      (h : cursor.turn a = .gives step next) (hrest : Gives a next rest) :
      Gives a cursor (step :: rest)
  | climbs {cursor next : Cursor} {rest : List Transformation} (h : cursor.turn a = .climbs next)
      (hrest : Gives a next rest) : Gives a cursor rest

namespace Gives

theorem of_ended (h : cursor.Gives a steps) (hturn : cursor.turn a = .ended) : steps = [] := by
  cases h with
  | ended => rfl
  | gives h => cases hturn.symm.trans h
  | climbs h => cases hturn.symm.trans h

theorem of_gives {next : Cursor} {step : Transformation} (h : cursor.Gives a steps)
    (hturn : cursor.turn a = .gives step next) :
    ∃ rest, steps = step :: rest ∧ next.Gives a rest := by
  cases h with
  | ended h => cases hturn.symm.trans h
  | gives h hrest =>
      cases hturn.symm.trans h
      exact ⟨_, rfl, hrest⟩
  | climbs h => cases hturn.symm.trans h

theorem of_climbs {next : Cursor} (h : cursor.Gives a steps)
    (hturn : cursor.turn a = .climbs next) : next.Gives a steps := by
  cases h with
  | ended h => cases hturn.symm.trans h
  | gives h => cases hturn.symm.trans h
  | climbs h hrest =>
      cases hturn.symm.trans h
      exact hrest

/-- A cursor has no choice. -/
theorem unique (h : cursor.Gives a steps) (h' : cursor.Gives a steps') : steps = steps' := by
  induction h generalizing steps' with
  | ended hturn => exact (h'.of_ended hturn).symm
  | gives hturn _ ih =>
      rcases h'.of_gives hturn with ⟨rest, rfl, hrest⟩
      rw [ih hrest]
  | climbs hturn _ ih => exact ih (h'.of_climbs hturn)

end Gives

theorem turn_none (a : Assembly) (index : Nat) : (Cursor.mk none index).turn a = .ended := rfl

/-- Before one of its transformations a cursor gives it out. -/
theorem turn_of_lt {c : Component} {index : Nat} (h : index < c.direct.length) :
    (Cursor.mk (some c) index).turn a = .gives c.direct[index] ⟨some c, index + 1⟩ := by
  simp only [turn, List.getElem?_eq_getElem h]

/-- Behind all of them it climbs. -/
theorem turn_of_le {c : Component} {index : Nat} (h : c.direct.length ≤ index) :
    (Cursor.mk (some c) index).turn a = .climbs ⟨c.parent.bind a.get?, 0⟩ := by
  simp only [turn, List.getElem?_eq_none h]

/-- A cursor gives out what is left on its component, and then what there is above. -/
theorem gives_of_above {c : Component} {above : List Transformation}
    (h : Gives a ⟨c.parent.bind a.get?, 0⟩ above) (index : Nat) :
    Gives a ⟨some c, index⟩ (c.direct.drop index ++ above) := by
  induction hleft : c.direct.length - index generalizing index with
  | zero =>
      have hle : c.direct.length ≤ index := by omega
      rw [List.drop_eq_nil_of_le hle, List.nil_append]
      exact .climbs (turn_of_le hle) h
  | succ left ih =>
      have hlt : index < c.direct.length := by omega
      rw [List.drop_eq_getElem_cons hlt, List.cons_append]
      exact .gives (turn_of_lt hlt) (ih (index + 1) (by omega))

/-- One turn of collecting. -/
theorem collect_eq_turn (a : Assembly) (bound : Nat) (cursor : Cursor) :
    cursor.collect a bound =
      match cursor.turn a with
      | .ended => []
      | .gives step next => step :: next.collect a bound
      | .climbs next =>
        match bound with
        | 0 => []
        | bound + 1 => next.collect a bound := by
  rw [collect]
  split
  · next h => rw [h]
  · next h => rw [h]
  · next h => cases bound <;> simp only [h]

/-- What is left on a component comes first. -/
theorem collect_append (bound : Nat) (c : Component) (index : Nat) :
    (Cursor.mk (some c) index).collect a bound =
      c.direct.drop index ++ (Cursor.mk (some c) c.direct.length).collect a bound := by
  induction hleft : c.direct.length - index generalizing index with
  | zero =>
      have hle : c.direct.length ≤ index := by omega
      rw [List.drop_eq_nil_of_le hle, List.nil_append, collect_eq_turn, turn_of_le hle,
        collect_eq_turn, turn_of_le (Nat.le_refl _)]
  | succ left ih =>
      have hlt : index < c.direct.length := by omega
      rw [List.drop_eq_getElem_cons hlt, List.cons_append, ← ih (index + 1) (by omega),
        collect_eq_turn, turn_of_lt hlt]

/-- To collect is to put together what is left on the component and what its ancestors have been
    through, as far up as the cursor may climb. The bound counts the turns upwards only, since a
    component has finitely many transformations to give out. -/
theorem collect_eq (bound : Nat) (c : Component) (index : Nat) :
    (Cursor.mk (some c) index).collect a bound =
      c.direct.drop index ++ (a.chain bound c.parent).flatMap a.direct := by
  rw [collect_append]
  congr 1
  -- Once a component is used up the cursor climbs to its parent and starts anew there.
  induction bound generalizing c with
  | zero => rw [collect_eq_turn, turn_of_le (Nat.le_refl _), Assembly.chain, List.flatMap_nil]
  | succ bound ih =>
      rw [collect_eq_turn, turn_of_le (Nat.le_refl _)]
      cases hp : c.parent with
      | none =>
          rw [Option.bind_none, Assembly.chain_none, List.flatMap_nil]
          exact collect_eq_turn a bound _
      | some parent =>
          rw [Option.bind_some, Assembly.chain, List.flatMap_cons, Assembly.parent?]
          cases hparent : a.get? parent with
          | none =>
              rw [Assembly.direct, hparent, Option.bind_none, Assembly.chain_none, List.flatMap_nil]
              exact collect_eq_turn a bound _
          | some k =>
              rw [Assembly.direct, hparent, Option.bind_some]
              change (Cursor.mk (some k) 0).collect a bound = _
              rw [collect_append, List.drop_zero, ih]

end Cursor

namespace Assembly

variable {a : Assembly}

/-- A component and its ancestors, nearest first. They are all that move it. -/
def lineage (a : Assembly) (id : ComponentId) : List ComponentId := id :: a.ancestors id

theorem history_eq_flatMap (a : Assembly) (id : ComponentId) :
    a.history id = (a.lineage id).flatMap a.direct := rfl

theorem direct_of_get? {id : ComponentId} {c : Component} (h : a.get? id = some c) :
    a.direct id = c.direct := by
  simp only [direct, h]

namespace WellFormed

/-- What holds of a component if it holds of its parent holds of every component. For nothing is
    above the last component of a lineage, and every lineage has one. -/
theorem parent_induction (h : a.WellFormed) {P : ComponentId → Prop}
    (hstep : ∀ id, (∀ parent, a.parent? id = some parent → P parent) → P id) (id : ComponentId) :
    P id := by
  suffices hall : ∀ depth id, EndsWithin (fun id => (a.parent? id).toList) depth id → P id from
    hall _ id (h.parentsEnd id)
  intro depth
  induction depth with
  | zero => exact fun _ hends => hends.elim
  | succ depth ih =>
      intro id hends
      exact hstep id fun parent hp => ih parent (hends parent (Option.mem_toList.mpr hp))

/-- The cursor of a component gives out its history. -/
theorem gives_history (h : a.WellFormed) (id : ComponentId) :
    (a.cursor id).Gives a (a.history id) := by
  induction id using h.parent_induction with
  | hstep id ih =>
      rw [h.history_eq]
      cases hc : a.get? id with
      | none =>
          rw [parent?, hc, direct, hc, cursor, hc]
          exact .ended (Cursor.turn_none a 0)
      | some c =>
          rw [parent?_of_get? hc, direct_of_get? hc, cursor, hc]
          refine Cursor.gives_of_above ?_ 0
          cases hp : c.parent with
          | none => exact .ended (Cursor.turn_none a 0)
          | some parent => exact ih parent (by rw [parent?_of_get? hc, hp])

/-- The cursor of a component gives out its history and nothing else. In particular it ends, and it
    does so without any bound on its turns. -/
theorem gives_iff (h : a.WellFormed) (id : ComponentId) (steps : List Transformation) :
    (a.cursor id).Gives a steps ↔ steps = a.history id := by
  constructor
  · exact fun hgives => hgives.unique (h.gives_history id)
  · rintro rfl
    exact h.gives_history id

end WellFormed

/-- The cursor of a component collects what the component has been through and then its ancestors,
    as far up as it may climb. A component that does not exist has nothing to collect. -/
theorem collect_cursor (a : Assembly) (bound : Nat) (id : ComponentId) :
    (a.cursor id).collect a bound =
      a.direct id ++ (a.chain bound (a.parent? id)).flatMap a.direct := by
  cases hc : a.get? id with
  | none =>
      rw [cursor, hc, direct, hc, parent?, hc, Option.bind_none, chain_none]
      exact Cursor.collect_eq_turn a bound _
  | some c =>
      rw [cursor, hc, direct_of_get? hc, parent?_of_get? hc]
      exact Cursor.collect_eq bound c 0

/-- A cursor that may climb as often as there are components never stops short. -/
theorem WellFormed.collect_eq_history (h : a.WellFormed) {bound : Nat} (hbound : a.size ≤ bound)
    (id : ComponentId) : (a.cursor id).collect a bound = a.history id := by
  rw [collect_cursor, h.chain_eq hbound, history, List.flatMap_cons]

/-- To collect what the cursor of a component gives out is to ask for its history. -/
theorem transformations_eq (a : Assembly) (id : ComponentId) :
    a.transformations id = (a.find id).map fun _ => a.history id := by
  unfold transformations cursor?
  cases hfind : a.find id with
  | error e => rfl
  | ok c =>
      have hcursor : a.cursor id = ⟨some c, 0⟩ := by rw [cursor, find_eq_ok_iff.mp hfind]
      change Except.ok ((Cursor.mk (some c) 0).collect a a.size) = Except.ok (a.history id)
      rw [← hcursor, collect_cursor, history, List.flatMap_cons, ancestors]

end Assembly

end SolidModel
