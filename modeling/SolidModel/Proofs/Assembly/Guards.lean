import SolidModel.Proofs.Assembly.Refusal

/-!
# Guards Against Circles

What is refused lest a component be made of itself, and that nothing else is.

That no circle gets in says little for the guards by themselves, since an assembly that refused
everything would have none either. What has to be said is when they refuse. A link from a parent to
a child, or from a component to an operand, closes a circle if and only if the one gets to the other
already, and that is when they do. It does not matter that the operations ask in different orders,
nor that some of them walk up along parents before they search: whoever stands above a component
gets to it, so that the walk never finds a circle that the search would not.

There is one more reason to refuse what exists. A component that belongs to somebody is not given
to somebody else. A composition tells of circles first, so that this is told only where there is no
circle.

A new component that nobody owns is part of nothing yet. There is no circle to be closed, and none
is ever told.

## Main definitions

* `AssemblyError.Cyclic`: The reports of circles.
* `Assembly.OwnedElsewhere`: A component belongs to somebody else.
* `Assembly.GuardsExactly`: When the operations refuse what exists.

## Theorems

* `Assembly.checkAdoption_eq_error`, `Assembly.checkInPlace_eq_error`,
  `Assembly.checkDraft_eq_error`: What the checks can have against what exists.
* `Assembly.checkInPlace_of_reaches`: A circle is told first.
* `Edit.not_cyclic_of_composeNew`: A new component closes no circle.
* `Assembly.Reachable.guards_exactly`: All of it about a reachable assembly.
-/

namespace SolidModel

open Relation

/-- The report is of a circle. -/
def AssemblyError.Cyclic : AssemblyError → Prop
  | .cyclicParent _ _ | .cyclicUse _ _ => True
  | _ => False

namespace Assembly

variable {a : Assembly}

/-- A component has a parent, and it is not this one. -/
def OwnedElsewhere (a : Assembly) (child parent : ComponentId) : Prop :=
  ∃ current, a.parent? child = some current ∧ current ≠ parent

theorem not_ownedElsewhere_iff {child parent : ComponentId} :
    ¬ a.OwnedElsewhere child parent ↔ a.parent? child = none ∨ a.parent? child = some parent := by
  unfold OwnedElsewhere
  cases a.parent? child with
  | none => simp only [reduceCtorEq, false_and, exists_false, not_false_eq_true, true_or]
  | some current =>
      simp only [Option.some.injEq, reduceCtorEq, false_or, not_exists, not_and, not_not,
        forall_eq']

theorem checkKnown_eq_error {id : ComponentId} {e : AssemblyError}
    (h : a.checkKnown id = .error e) : e = .unknown id := by
  unfold checkKnown find at h
  cases hid : a.get? id with
  | none =>
      rw [hid] at h
      exact (Except.error.inj h).symm
  | some c =>
      rw [hid] at h
      exact absurd h (by simp only [Except.map, reduceCtorEq, not_false_eq_true])

theorem checkFree_eq_error {child : ComponentId} {e : AssemblyError}
    (h : a.checkFree child = .error e) :
    e = .unknown child ∨ ∃ current, e = .alreadyOwned child current := by
  unfold checkFree find at h
  cases hchild : a.get? child with
  | none =>
      rw [hchild] at h
      exact Or.inl (Except.error.inj h).symm
  | some c =>
      simp only [hchild, Except.ok_bind] at h
      split at h
      · exact absurd h (by simp only [reduceCtorEq, not_false_eq_true])
      · next current _ => exact Or.inr ⟨current, (Except.error.inj h).symm⟩

theorem checkAbove_eq_error {parent child : ComponentId} {e : AssemblyError}
    (h : a.checkAbove parent child = .error e) : e = .cyclicParent child parent := by
  unfold checkAbove at h
  split at h
  · exact (Except.error.inj h).symm
  · exact absurd h (by simp only [reduceCtorEq, not_false_eq_true])

theorem checkUse_eq_error {component operand : ComponentId} {e : AssemblyError}
    (h : a.checkUse component operand = .error e) : e = .cyclicUse component operand := by
  unfold checkUse at h
  split at h
  · exact (Except.error.inj h).symm
  · exact absurd h (by simp only [reduceCtorEq, not_false_eq_true])

theorem checkOwner_eq_error {child parent : ComponentId} {owner : Option ComponentId}
    {e : AssemblyError} (h : (checkOwner child parent owner).result = .error e) :
    ∃ current, owner = some current ∧ current ≠ parent ∧ e = .alreadyOwned child current := by
  cases owner with
  | none => cases h
  | some current =>
      rw [checkOwner] at h
      split at h
      · cases h
      · next hne =>
          rw [Logged.bind_result] at h
          exact ⟨current, rfl, hne, (Except.error.inj h).symm⟩

/-- Where there is no circle, the only thing against an adoption is another parent. -/
theorem checkAdoption_eq_error (hwf : ∀ child parent, a.parent? child = some parent →
    a.Uses parent child) {parent child : ComponentId} (hparent : a.contains parent = true)
    (hchild : a.contains child = true) (hreach : ¬ a.Reaches child parent) {e : AssemblyError}
    (h : (a.checkAdoption parent child).result = .error e) :
    a.OwnedElsewhere child parent ∧ ∃ current, e = .alreadyOwned child current := by
  rcases get?_of_contains hchild with ⟨c, hc⟩
  unfold checkAdoption at h
  simp only [Logged.bind_result, Logged.ofExcept_result, find_eq_ok_iff.mpr hc,
    checkKnown_eq_ok_iff.mpr hparent, checkAbove_eq_ok hwf hreach,
    checkUse_eq_ok_iff.mpr hreach, Except.ok_bind] at h
  rcases Except.bind_eq_error_iff.mp h with howner | ⟨_, _, hrest⟩
  · rcases checkOwner_eq_error howner with ⟨current, hcurrent, hne, he⟩
    exact ⟨⟨current, by rw [parent?_of_get? hc, hcurrent], hne⟩, current, he⟩
  · cases hrest

theorem checkOperands_result (id : ComponentId) (operands : List ComponentId) :
    (a.checkOperands id operands).result =
      match operands.find? fun operand => a.dependsOn operand id with
      | none => .ok ()
      | some operand => .error (.cyclicUse id operand) := by
  unfold checkOperands
  cases operands.find? fun operand => a.dependsOn operand id <;> rfl

theorem checkInPlace_result (id : ComponentId) (operands : List ComponentId) (adopts : Bool) :
    (a.checkInPlace id operands adopts).result = (a.checkOperands id operands).result >>= fun _ =>
      if adopts then operands.forM fun operand => (a.checkAdoption id operand).result
      else .ok () := by
  unfold checkInPlace
  rw [Logged.bind_result]
  cases adopts with
  | false => rfl
  | true => exact bind_congr fun _ => Logged.forM_result _ _

/-- If an operand gets to the component, that is what is told, before anything else. All operands
    are searched before any is adopted, and the first that gets to the component is named. -/
theorem checkInPlace_of_reaches {id operand : ComponentId} {operands : List ComponentId}
    (hmem : operand ∈ operands) (hreach : a.Reaches operand id) (adopts : Bool) :
    ∃ first ∈ operands, a.Reaches first id ∧
      (a.checkInPlace id operands adopts).result = .error (.cyclicUse id first) := by
  have huses : a.dependsOn operand id = true := (a.dependsOn_iff operand id).mpr hreach
  cases hfind : operands.find? fun operand => a.dependsOn operand id with
  | none => exact absurd huses (List.find?_eq_none.mp hfind operand hmem)
  | some first =>
      have hfirst : a.dependsOn first id = true := by simpa only using List.find?_some hfind
      refine ⟨first, List.mem_of_find?_eq_some hfind, (a.dependsOn_iff first id).mp hfirst, ?_⟩
      rw [checkInPlace_result, checkOperands_result, hfind]
      rfl

/-- If no operand does, the only thing against a composition is that operands to be adopted belong
    to others. -/
theorem checkInPlace_eq_error (hwf : ∀ child parent, a.parent? child = some parent →
    a.Uses parent child) {id : ComponentId} {operands : List ComponentId} {adopts : Bool}
    (hid : a.contains id = true) (hknown : ∀ operand ∈ operands, a.contains operand = true)
    (hreach : ∀ operand ∈ operands, ¬ a.Reaches operand id) {e : AssemblyError}
    (h : (a.checkInPlace id operands adopts).result = .error e) :
    adopts = true ∧ ∃ operand ∈ operands, a.OwnedElsewhere operand id ∧
      ∃ current, e = .alreadyOwned operand current := by
  have hfind : (operands.find? fun operand => a.dependsOn operand id) = none :=
    List.find?_eq_none.mpr fun operand hmem huses =>
      hreach operand hmem ((a.dependsOn_iff operand id).mp huses)
  rw [checkInPlace_result, checkOperands_result, hfind] at h
  cases adopts with
  | false => cases h
  | true =>
      have hadoptions : (operands.forM fun operand => (a.checkAdoption id operand).result) =
          .error e := h
      rcases Except.exists_of_forM_eq_error hadoptions with ⟨operand, hmem, hrefused⟩
      exact ⟨rfl, operand, hmem, checkAdoption_eq_error hwf hid (hknown operand hmem)
        (hreach operand hmem) hrefused⟩

/-- If all that a draft names is there, and its children are free, only circles can be against it.
    They can come about by a parent alone, as nothing old is made of what is new. -/
theorem checkDraft_eq_error {draft : Draft}
    (hfree : ∀ child ∈ draft.children, a.contains child = true ∧ a.parent? child = none)
    (hknown : ∀ operand ∈ draft.composed, a.contains operand = true)
    (hparent : ∀ parent, draft.parent = some parent → a.contains parent = true)
    {e : AssemblyError} (h : a.checkDraft draft = .error e) : e.Cyclic := by
  have hchildren : draft.children.forM a.checkFree = .ok () :=
    Except.forM_eq_ok_iff.mpr fun child hchild => checkFree_eq_ok_iff.mpr (hfree child hchild)
  have hoperands : draft.composed.forM a.checkKnown = .ok () :=
    Except.forM_eq_ok_iff.mpr fun operand ho => checkKnown_eq_ok_iff.mpr (hknown operand ho)
  unfold checkDraft at h
  rw [hchildren] at h
  -- Children and operands are let through, so that whatever is refused is refused for the parent.
  cases hp : draft.parent with
  | none =>
      simp only [hp, hoperands, Except.ok_bind] at h
      cases h
  | some parent =>
      simp only [hp, hoperands, checkKnown_eq_ok_iff.mpr (hparent parent hp), Except.ok_bind] at h
      rcases Except.bind_eq_error_iff.mp h with habove | ⟨_, _, huse⟩
      · rcases Except.exists_of_forM_eq_error habove with ⟨child, _, hchild⟩
        rw [checkAbove_eq_error hchild]
        trivial
      · rcases Except.exists_of_forM_eq_error huse with ⟨part, _, hpart⟩
        rw [checkUse_eq_error hpart]
        trivial

end Assembly

namespace Edit

open Assembly

variable {a : Assembly}

variable {id : ComponentId} {operator : Operator} {operands : List ComponentId} {mode : ComposeMode}

/-- Otherwise it is told what is missing. -/
theorem compose_of_unknown (operator : Operator) (mode : ComposeMode)
    (hmissing : ¬ (a.contains id = true ∧ ∀ operand ∈ operands, a.contains operand = true)) :
    ∃ missing, (compose id operator operands mode a).result = .error (.unknown missing) := by
  unfold compose
  cases hid : a.checkKnown id with
  | error e =>
      rw [read_bind_of_error hid, checkKnown_eq_error hid]
      exact ⟨id, rfl⟩
  | ok _ =>
      rw [read_bind_of_ok hid]
      cases hoperands : operands.forM a.checkKnown with
      | error e =>
          rcases Except.exists_of_forM_eq_error hoperands with ⟨operand, _, hoperand⟩
          rw [read_bind_of_error hoperands, checkKnown_eq_error hoperand]
          exact ⟨operand, rfl⟩
      | ok _ =>
          refine absurd ⟨checkKnown_eq_ok_iff.mp hid, fun operand ho => ?_⟩ hmissing
          exact checkKnown_eq_ok_iff.mp (Except.forM_eq_ok_iff.mp hoperands operand ho)

/-- In place and without copies there is nothing to do but to record. -/
theorem compose_eq_composeOn (hcopies : mode.copies = false) (hplace : mode.inPlace = true)
    (hid : a.contains id = true) (hknown : ∀ operand ∈ operands, a.contains operand = true) :
    compose id operator operands mode a = composeOn id ⟨operator, operands⟩ mode.adopts a := by
  rw [compose_of_known hid hknown, hcopies, hplace]
  rfl

/-- In place and without copies, the check of the operands decides. -/
theorem compose_decidedBy (hcopies : mode.copies = false) (hplace : mode.inPlace = true)
    (hid : a.contains id = true) (hknown : ∀ operand ∈ operands, a.contains operand = true) :
    (compose id operator operands mode).DecidedBy a
      (a.checkInPlace id operands mode.adopts).result := by
  have hsame : compose id operator operands mode a = _ :=
    compose_eq_composeOn hcopies hplace hid hknown
  have hdecided := composeOn_decidedBy (a := a) id ⟨operator, operands⟩ mode.adopts
  refine ⟨fun error herror => ?_, fun value hvalue => ?_⟩
  · rw [hsame]
    exact hdecided.refused error herror
  · rcases hdecided.done value hvalue with ⟨value', b, hyields⟩
    exact ⟨value', b, by rw [Yields, hsame]; exact hyields⟩

/-- Whatever a composition on a new component is refused for, it is not for a circle. -/
theorem not_cyclic_of_composeNew {composition : Composition} {adopts : Bool} {e : AssemblyError}
    (h : (composeNew composition adopts a).result = .error e) : ¬ e.Cyclic := by
  have hcheck := (composeNew_decidedBy composition adopts).eq_error_iff.mp h
  cases adopts with
  | false => cases hcheck
  | true =>
      rcases Except.exists_of_forM_eq_error hcheck with ⟨part, _, hpart⟩
      rcases checkFree_eq_error hpart with rfl | ⟨current, rfl⟩ <;> exact fun hcyclic => hcyclic

/-- A composition that is not in place is not refused for a circle, whatever it is of. -/
theorem not_cyclic_of_compose (h : a.WellFormed) (hplace : mode.inPlace = false) {e : AssemblyError}
    (hrefused : (compose id operator operands mode a).result = .error e) : ¬ e.Cyclic := by
  by_cases hknown : a.contains id = true ∧ ∀ operand ∈ operands, a.contains operand = true
  · rcases mode with ⟨copies, inPlace, adopts⟩
    cases copies with
    | false =>
        rw [compose_of_known hknown.1 hknown.2, hplace] at hrefused
        have hnew : (composeNew ⟨operator, operands ++ [id]⟩ adopts a).result = .error e :=
          hrefused
        exact not_cyclic_of_composeNew hnew
    | true =>
        -- Copies belong to nobody and are part of nothing, so there is no refusal at all.
        rcases compose_copies_succeeds h hknown.1 operator hknown.2 inPlace adopts with
          ⟨value, b, hyields⟩
        rw [hyields.result] at hrefused
        exact absurd hrefused (by simp only [reduceCtorEq, not_false_eq_true])
  · rcases compose_of_unknown operator mode hknown with ⟨missing, hunknown⟩
    rw [hunknown] at hrefused
    rw [← Except.error.inj hrefused]
    exact fun hcyclic => hcyclic

/-- What is against a composition in place of components that are there. -/
theorem compose_in_place (h : a.WellFormed) (hcopies : mode.copies = false)
    (hplace : mode.inPlace = true) (hid : a.contains id = true)
    (hknown : ∀ operand ∈ operands, a.contains operand = true) :
    ((∃ component operand, (compose id operator operands mode a).result =
        .error (.cyclicUse component operand)) ↔ ∃ operand ∈ operands, a.Reaches operand id) ∧
      ((∀ operand ∈ operands, ¬ a.Reaches operand id) →
        ((∃ e, (compose id operator operands mode a).result = .error e) ↔
          mode.adopts = true ∧ ∃ operand ∈ operands, a.OwnedElsewhere operand id) ∧
        ∀ e, (compose id operator operands mode a).result = .error e →
          ∃ child current, e = .alreadyOwned child current) := by
  have hdecided : (compose id operator operands mode).DecidedBy a _ :=
    compose_decidedBy hcopies hplace hid hknown
  have hwf : ∀ child parent, a.parent? child = some parent → a.Uses parent child :=
    fun _ _ hp => h.uses_of_parent? hp
  -- Circles are checked first, so that owners matter only if no operand gets to the component.
  refine ⟨⟨?_, ?_⟩, fun hreach => ⟨⟨?_, ?_⟩, ?_⟩⟩
  · rintro ⟨component, operand, herror⟩
    by_contra hnone
    have hreach : ∀ operand ∈ operands, ¬ a.Reaches operand id :=
      fun operand hmem hr => hnone ⟨operand, hmem, hr⟩
    rcases checkInPlace_eq_error hwf hid hknown hreach (hdecided.eq_error_iff.mp herror) with
      ⟨_, _, _, _, _, hother⟩
    exact absurd hother (by simp only [reduceCtorEq, not_false_eq_true])
  · rintro ⟨operand, hmem, hr⟩
    rcases checkInPlace_of_reaches hmem hr mode.adopts with ⟨first, _, _, herror⟩
    exact ⟨id, first, hdecided.eq_error_iff.mpr herror⟩
  · rintro ⟨e, herror⟩
    rcases checkInPlace_eq_error hwf hid hknown hreach (hdecided.eq_error_iff.mp herror) with
      ⟨hadopts, operand, hmem, howned, _⟩
    exact ⟨hadopts, operand, hmem, howned⟩
  · rintro ⟨hadopts, operand, hmem, howned⟩
    cases hcheck : (a.checkInPlace id operands mode.adopts).result with
    | error e => exact ⟨e, hdecided.eq_error_iff.mpr hcheck⟩
    | ok _ =>
        have hadoption := (checkInPlace_eq_ok_iff.mp hcheck).2 hadopts operand hmem
        have hfree := ((checkAdoption_eq_ok_iff hwf).mp hadoption).2.free
        exact absurd howned (not_ownedElsewhere_iff.mpr hfree)
  · intro e herror
    rcases checkInPlace_eq_error hwf hid hknown hreach (hdecided.eq_error_iff.mp herror) with
      ⟨_, operand, _, _, current, he⟩
    exact ⟨operand, current, he⟩

/-- What is against a new component whose children are free and whose operands are there. -/
theorem create_of_free (h : a.WellFormed) {draft : Draft}
    (hfree : ∀ child ∈ draft.children, a.contains child = true ∧ a.parent? child = none)
    (hknown : ∀ operand ∈ draft.composed, a.contains operand = true)
    (hparent : ∀ parent, draft.parent = some parent → a.contains parent = true) :
    ((∃ e, (create draft a).result = .error e) ↔ ∃ parent, draft.parent = some parent ∧
        ∃ part ∈ draft.children ++ draft.composed, a.Reaches part parent) ∧
      ∀ e, (create draft a).result = .error e → e.Cyclic := by
  have hdecided := create_decidedBy (a := a) draft
  have hok : a.checkDraft draft = .ok () ↔ _ :=
    checkDraft_eq_ok_iff fun _ _ hp => h.uses_of_parent? hp
  refine ⟨⟨?_, ?_⟩, fun e herror => ?_⟩
  · rintro ⟨e, herror⟩
    by_contra hnone
    have hall : a.checkDraft draft = .ok () :=
      hok.mpr ⟨hfree, hknown, fun parent hp => ⟨hparent parent hp, fun part hpart hreach =>
        hnone ⟨parent, hp, part, hpart, hreach⟩⟩⟩
    have hrefused := hdecided.eq_error_iff.mp herror
    rw [hall] at hrefused
    exact absurd hrefused (by simp only [reduceCtorEq, not_false_eq_true])
  · rintro ⟨parent, hp, part, hpart, hreach⟩
    cases hcheck : a.checkDraft draft with
    | error e => exact ⟨e, hdecided.eq_error_iff.mpr hcheck⟩
    | ok _ => exact absurd hreach (((hok.mp hcheck).2.2 parent hp).2 part hpart)
  · exact checkDraft_eq_error hfree hknown hparent (hdecided.eq_error_iff.mp herror)

end Edit

namespace Assembly

/-- The operations refuse what would close a circle, and beyond that only what belongs to somebody
    else. -/
structure GuardsExactly (a : Assembly) : Prop where
  /-- A parent adopts what is free, or its own, and does not get to it. -/
  adoption : ∀ parent child, a.contains parent = true → a.contains child = true →
    ((Edit.addChild parent child).Succeeds a ↔
      (a.parent? child = none ∨ a.parent? child = some parent) ∧ ¬ a.Reaches child parent)
  /-- A composition in place is refused for a circle if an operand gets to the component. Otherwise
      it is refused if operands are adopted that belong to others, and only for that. -/
  inPlace : ∀ id operator operands (mode : ComposeMode), mode.copies = false →
    mode.inPlace = true → a.contains id = true →
    (∀ operand ∈ operands, a.contains operand = true) →
    ((∃ component operand, (Edit.compose id operator operands mode a).result =
        .error (.cyclicUse component operand)) ↔ ∃ operand ∈ operands, a.Reaches operand id) ∧
      ((∀ operand ∈ operands, ¬ a.Reaches operand id) →
        ((∃ e, (Edit.compose id operator operands mode a).result = .error e) ↔
          mode.adopts = true ∧ ∃ operand ∈ operands, a.OwnedElsewhere operand id) ∧
        ∀ e, (Edit.compose id operator operands mode a).result = .error e →
          ∃ child current, e = .alreadyOwned child current)
  /-- A new component with a parent is refused if a part of it gets to the parent, and for that
      circle. -/
  creation : ∀ (draft : Draft) parent, draft.parent = some parent → a.contains parent = true →
    (∀ child ∈ draft.children, a.contains child = true ∧ a.parent? child = none) →
    (∀ operand ∈ draft.composed, a.contains operand = true) →
    ((∃ e, (Edit.create draft a).result = .error e) ↔
        ∃ part ∈ draft.children ++ draft.composed, a.Reaches part parent) ∧
      ∀ e, (Edit.create draft a).result = .error e → e.Cyclic
  /-- A new component without a parent is not refused. -/
  orphan : ∀ draft : Draft, draft.parent = none →
    (∀ child ∈ draft.children, a.contains child = true ∧ a.parent? child = none) →
    (∀ operand ∈ draft.composed, a.contains operand = true) → (Edit.create draft).Succeeds a
  /-- A composition that is recorded on a new component is not refused for a circle. -/
  beside : ∀ id operator operands (mode : ComposeMode), mode.inPlace = false →
    ∀ e, (Edit.compose id operator operands mode a).result = .error e → ¬ e.Cyclic

namespace Reachable

variable {a : Assembly}

/-- In every reachable assembly the operations refuse exactly what would close a circle, apart from
    what belongs to somebody else. `GuardsExactly` goes through them one by one: the adoption of a
    child, a composition in place, the making of a component with a parent and without one, and a
    composition on a new component. Each condition speaks of what can be reached through children
    and operands in any number of steps, and not of the search by which an operation finds out. -/
theorem guards_exactly (h : a.Reachable) : a.GuardsExactly := by
  have hwf := h.wellFormed
  refine ⟨fun parent child hparent hchild => ?_, fun id operator operands mode hcopies hplace =>
    Edit.compose_in_place hwf hcopies hplace, fun draft parent hp hparent hfree hknown => ?_,
    fun draft hp hfree hknown => ?_, fun id operator operands mode hplace e =>
    Edit.not_cyclic_of_compose hwf hplace⟩
  · rw [(Edit.addChild_decidedBy parent child).succeeds_iff]
    have hcheck : (a.checkAdoption parent child).result = .ok () ↔ _ :=
      checkAdoption_eq_ok_iff fun _ _ hp => hwf.uses_of_parent? hp
    constructor
    · rintro ⟨_, hok⟩
      exact ⟨(hcheck.mp hok).2.free, (hcheck.mp hok).2.apart⟩
    · rintro ⟨hfree, hreach⟩
      exact ⟨(), hcheck.mpr ⟨hparent, hchild, hfree, hreach⟩⟩
  · have hother : ∀ other, draft.parent = some other → a.contains other = true := by
      rw [hp]
      rintro other heq
      rw [← Option.some.inj heq]
      exact hparent
    have hcreate := Edit.create_of_free hwf hfree hknown hother
    simpa only [hp, Option.some.injEq, exists_eq_left'] using hcreate
  · have hcheck := (checkDraft_eq_ok_iff fun _ _ hp => hwf.uses_of_parent? hp).mpr
      ⟨hfree, hknown, fun parent hparent => absurd (hparent.symm.trans hp) (by
        simp only [reduceCtorEq, not_false_eq_true])⟩
    exact (Edit.create_decidedBy draft).done () hcheck

/-- A sphere belongs to a component that another one is made of, and there is a sphere beside
    them. -/
theorem guards_exactly_nested :
    let a : Assembly := ⟨#[
      { parent := some ⟨2⟩, shape := some (.sphere 1) },
      { children := [⟨1⟩] },
      { compositions := [⟨.union, [⟨2⟩]⟩] },
      { shape := some (.sphere 2) }]⟩
    a.Reachable ∧ ¬ (Edit.addChild ⟨1⟩ ⟨3⟩).Succeeds a ∧ (Edit.addChild ⟨1⟩ ⟨4⟩).Succeeds a ∧
      (∃ component operand, (Edit.compose ⟨1⟩ .difference [⟨4⟩, ⟨3⟩] {} a).result =
        .error (.cyclicUse component operand)) ∧
      (∃ e, (Edit.compose ⟨4⟩ .difference [⟨1⟩] {} a).result = .error e) ∧
      (∃ e, (Edit.create { parent := some ⟨1⟩, children := [⟨3⟩] } a).result = .error e) ∧
      (Edit.create { children := [⟨3⟩, ⟨4⟩] }).Succeeds a ∧
      ∀ e, (Edit.compose ⟨1⟩ .union [⟨1⟩, ⟨3⟩] { inPlace := false } a).result = .error e →
        ¬ e.Cyclic := by
  intro a
  have h : a.Reachable :=
    (((Reachable.empty.step (.add (.sphere 1))).step (.create { children := [⟨1⟩] })).step
      (.create { compositions := [⟨.union, [⟨2⟩]⟩] })).step (.add (.sphere 2))
  have hup : a.Reaches ⟨3⟩ ⟨1⟩ :=
    (ReflTransGen.single (show ⟨2⟩ ∈ a.uses ⟨3⟩ by decide)).tail (show ⟨1⟩ ∈ a.uses ⟨2⟩ by decide)
  have hguards := h.guards_exactly
  have hplace := hguards.inPlace ⟨4⟩ .difference [⟨1⟩] {} rfl rfl rfl (by decide)
  refine ⟨h, fun hok => ?_, ?_, ?_, ?_, ?_, ?_, hguards.beside _ _ _ _ rfl⟩
  · exact ((hguards.adoption ⟨1⟩ ⟨3⟩ rfl rfl).mp hok).2 hup
  · exact (hguards.adoption ⟨1⟩ ⟨4⟩ rfl rfl).mpr
      ⟨Or.inl rfl, not_reaches_of_uses_eq_nil rfl (by decide)⟩
  · exact (hguards.inPlace ⟨1⟩ .difference [⟨4⟩, ⟨3⟩] {} rfl rfl rfl (by decide)).1.mpr
      ⟨⟨3⟩, by decide, hup⟩
  · have hfar : ∀ operand ∈ [⟨1⟩], ¬ a.Reaches operand ⟨4⟩ := by
      intro operand hoperand
      rw [List.mem_singleton.mp hoperand]
      exact not_reaches_of_uses_eq_nil rfl (by decide)
    exact (hplace.2 hfar).1.mpr ⟨rfl, ⟨1⟩, List.mem_cons_self, ⟨2⟩, rfl, by decide⟩
  · exact (hguards.creation { parent := some ⟨1⟩, children := [⟨3⟩] } ⟨1⟩ rfl rfl (by decide)
      (by decide)).1.mpr ⟨⟨3⟩, by decide, hup⟩
  · exact hguards.orphan { children := [⟨3⟩, ⟨4⟩] } rfl (by decide) (by decide)

end Reachable

end Assembly

end SolidModel
