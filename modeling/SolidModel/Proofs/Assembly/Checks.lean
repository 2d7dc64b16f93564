import SolidModel.Assembly.Compose
import SolidModel.Assembly.Create
import SolidModel.Proofs.Assembly.Search
import SolidModel.Proofs.Assembly.WellFormed
import SolidModel.Proofs.Success

/-!
# What the Checks Establish

What is known once a check has succeeded.

Every operation asks before it changes anything, and what it asks is put together from a few
questions: whether an id names something, whether a component has a parent, whether one component
gets to another. Each of the questions is answered by a statement about links. With these the rest
of the library does not see how the search is carried out or in which order things are asked.

The report of a circle along parents never decides anything. Whatever stands above a component
gets to it, so that the search for uses would find the same circle.

## Theorems

* `Assembly.checkFree_eq_ok_iff`, `Assembly.checkUse_eq_ok_iff`: The questions.
* `Assembly.reaches_of_mem_ancestors`: What stands above a component gets to it.
* `Assembly.checkAdoption_eq_ok_iff`: When a parent may adopt a child.
* `Assembly.checkDraft_eq_ok_iff`: When a draft may become a component.
-/

namespace SolidModel

open Relation

namespace Assembly

variable {a : Assembly}

theorem find_eq_ok_iff {id : ComponentId} {c : Component} :
    a.find id = .ok c ↔ a.get? id = some c := by
  unfold find
  cases a.get? id with
  | none => simp only [reduceCtorEq]
  | some c' => simp only [Except.ok.injEq, Option.some.injEq]

theorem checkKnown_eq_ok_iff {id : ComponentId} :
    a.checkKnown id = .ok () ↔ a.contains id = true := by
  unfold checkKnown find contains
  cases a.get? id with
  | none => simp only [Except.map, Option.isSome_none, reduceCtorEq, Bool.false_eq_true]
  | some c => exact iff_of_true rfl rfl

/-- A component is free if it exists and has no parent. -/
theorem checkFree_eq_ok_iff {child : ComponentId} :
    a.checkFree child = .ok () ↔ a.contains child = true ∧ a.parent? child = none := by
  unfold checkFree
  rw [Except.bind_eq_ok_iff]
  constructor
  · rintro ⟨c, hfind, hparent⟩
    have hget := find_eq_ok_iff.mp hfind
    refine ⟨contains_of_get? hget, ?_⟩
    rw [parent?_of_get? hget]
    cases h : c.parent with
    | none => rfl
    | some parent =>
        simp only [h] at hparent
        exact absurd hparent (by simp only [reduceCtorEq, not_false_eq_true])
  · rintro ⟨hknown, hnone⟩
    rcases get?_of_contains hknown with ⟨c, hc⟩
    refine ⟨c, find_eq_ok_iff.mpr hc, ?_⟩
    rw [parent?_of_get? hc] at hnone
    rw [hnone]

theorem checkAbove_eq_ok_iff {parent child : ComponentId} :
    a.checkAbove parent child = .ok () ↔ parent ≠ child ∧ child ∉ a.ancestors parent := by
  unfold checkAbove
  split
  · next h =>
      refine iff_of_false (by simp only [reduceCtorEq, not_false_eq_true]) ?_
      rintro ⟨hne, hnot⟩
      exact h.elim hne hnot
  · next h => exact iff_of_true rfl (not_or.mp h)

/-- An operand may be used if it does not get to the component. What is asked is the search, which
    is known to decide that. -/
theorem checkUse_eq_ok_iff {component operand : ComponentId} :
    a.checkUse component operand = .ok () ↔ ¬ a.Reaches operand component := by
  rw [← dependsOn_iff]
  unfold checkUse
  split
  · next h =>
      exact iff_of_false (by simp only [reduceCtorEq, not_false_eq_true]) (fun hnot => hnot h)
  · next h => exact iff_of_true rfl h

theorem checkOwner_eq_ok_iff {child parent : ComponentId} {current : Option ComponentId} :
    (checkOwner child parent current).result = .ok () ↔
      current = none ∨ current = some parent := by
  cases current with
  | none => exact iff_of_true rfl (Or.inl rfl)
  | some current =>
      simp only [checkOwner]
      split
      · next h => exact iff_of_true rfl (Or.inr (congrArg some h))
      · next h =>
          refine iff_of_false ?_ ?_
          · rw [Logged.check_bind_eq_ok_iff]
            rintro ⟨_, herror⟩
            exact absurd herror (by simp only [Logged.ofExcept, reduceCtorEq, not_false_eq_true])
          · rintro (hnone | hsome)
            · exact absurd hnone (by simp only [reduceCtorEq, not_false_eq_true])
            · exact h (Option.some.inj hsome)

/-- Each component of a chain of parents gets to all those before it. -/
theorem reaches_of_mem_chain (hwf : ∀ child parent, a.parent? child = some parent →
    a.Uses parent child) {bound : Nat} {id ancestor : ComponentId}
    (h : ancestor ∈ a.chain bound (a.parent? id)) : a.Reaches ancestor id := by
  induction bound generalizing id with
  | zero => exact absurd h List.not_mem_nil
  | succ bound ih =>
      cases hp : a.parent? id with
      | none =>
          rw [hp] at h
          exact absurd h List.not_mem_nil
      | some parent =>
          rw [hp, chain] at h
          rcases List.mem_cons.mp h with rfl | h
          · exact ReflTransGen.single (hwf id ancestor hp)
          · exact (ih h).tail (hwf id parent hp)

/-- What stands above a component gets to it. -/
theorem reaches_of_mem_ancestors (hwf : ∀ child parent, a.parent? child = some parent →
    a.Uses parent child) {id ancestor : ComponentId} (h : ancestor ∈ a.ancestors id) :
    a.Reaches ancestor id :=
  reaches_of_mem_chain hwf h

/-- A parent does not stand below a child that does not get to it. -/
theorem checkAbove_eq_ok (hwf : ∀ child parent, a.parent? child = some parent →
    a.Uses parent child) {parent child : ComponentId} (hreach : ¬ a.Reaches child parent) :
    a.checkAbove parent child = .ok () := by
  refine checkAbove_eq_ok_iff.mpr ⟨?_, fun hmem => ?_⟩
  · rintro rfl
    exact hreach ReflTransGen.refl
  · exact hreach (reaches_of_mem_ancestors hwf hmem)

/-- A parent may adopt a child that is free, or its own, and is not made of it. The check walks up
    from the parent first and searches below the child afterwards. Where parents list their
    children, a child that is met on the way up is found by the search as well, so that the search
    alone decides. -/
theorem checkAdoption_eq_ok_iff (hwf : ∀ child parent, a.parent? child = some parent →
    a.Uses parent child) {parent child : ComponentId} :
    (a.checkAdoption parent child).result = .ok () ↔
      a.contains parent = true ∧ a.MayAdopt parent child := by
  unfold checkAdoption
  rw [Logged.bind_eq_ok_iff]
  simp only [Logged.check_bind_eq_ok_iff, Logged.ofExcept_result, find_eq_ok_iff,
    checkKnown_eq_ok_iff, checkOwner_eq_ok_iff, checkUse_eq_ok_iff]
  constructor
  · rintro ⟨c, hc, hparent, howner, _, hreach⟩
    rw [← parent?_of_get? hc] at howner
    exact ⟨hparent, contains_of_get? hc, howner, hreach⟩
  · rintro ⟨hparent, hchild, howner, hreach⟩
    rcases get?_of_contains hchild with ⟨c, hc⟩
    rw [parent?_of_get? hc] at howner
    exact ⟨c, hc, hparent, howner, checkAbove_eq_ok hwf hreach, hreach⟩

/-- A draft may become a component if its children are free, its operands known and, if it has a
    parent, nothing of it is made of the parent. -/
theorem checkDraft_eq_ok_iff (hwf : ∀ child parent, a.parent? child = some parent →
    a.Uses parent child) {draft : Draft} :
    a.checkDraft draft = .ok () ↔
      (∀ child ∈ draft.children, a.contains child = true ∧ a.parent? child = none) ∧
        (∀ operand ∈ draft.composed, a.contains operand = true) ∧
        ∀ parent, draft.parent = some parent → a.contains parent = true ∧
          ∀ part ∈ draft.children ++ draft.composed, ¬ a.Reaches part parent := by
  unfold checkDraft
  rw [Except.check_bind_eq_ok_iff]
  simp only [Except.forM_eq_ok_iff, checkFree_eq_ok_iff]
  refine and_congr_right fun _ => ?_
  -- Only with a parent is there anything that could close a circle.
  cases draft.parent with
  | none => simp only [Except.forM_eq_ok_iff, checkKnown_eq_ok_iff, reduceCtorEq, false_implies,
      implies_true, and_true]
  | some parent =>
      simp only [Except.check_bind_eq_ok_iff, Except.forM_eq_ok_iff, checkKnown_eq_ok_iff,
        checkUse_eq_ok_iff, Option.some.injEq, forall_eq']
      constructor
      · rintro ⟨hparent, _, hknown, hreach⟩
        exact ⟨hknown, hparent, hreach⟩
      · rintro ⟨hknown, hparent, hreach⟩
        exact ⟨hparent, fun child hchild =>
          checkAbove_eq_ok hwf (hreach child (List.mem_append_left _ hchild)), hknown, hreach⟩

/-- A composition may be recorded in place if no operand gets to the component, and with adoption
    if each operand may be adopted. -/
theorem checkInPlace_eq_ok_iff {id : ComponentId} {operands : List ComponentId} {adopts : Bool} :
    (a.checkInPlace id operands adopts).result = .ok () ↔
      (∀ operand ∈ operands, ¬ a.Reaches operand id) ∧
        (adopts = true → ∀ operand ∈ operands, (a.checkAdoption id operand).result = .ok ()) := by
  unfold checkInPlace
  rw [Logged.check_bind_eq_ok_iff]
  -- The first operand that gets to the component is what is refused, so that there must be none.
  have hfirst : (a.checkOperands id operands).result = .ok () ↔
      ∀ operand ∈ operands, ¬ a.Reaches operand id := by
    simp only [← dependsOn_iff]
    unfold checkOperands
    split
    · next h => exact iff_of_true rfl (List.find?_eq_none.mp h)
    · next operand h =>
        refine iff_of_false ?_ fun hall => ?_
        · rw [Logged.check_bind_eq_ok_iff]
          rintro ⟨_, herror⟩
          exact absurd herror (by simp only [Logged.ofExcept, reduceCtorEq, not_false_eq_true])
        · have huses : a.dependsOn operand id = true := by
            simpa only using List.find?_some h
          exact hall operand (List.mem_of_find?_eq_some h) huses
  refine and_congr hfirst ?_
  split
  · next htrue =>
      rw [Logged.forM_eq_ok_iff]
      exact ⟨fun h _ => h, fun h => h htrue⟩
  · next hfalse => exact iff_of_true rfl fun htrue => absurd htrue hfalse

end Assembly

end SolidModel
