import SolidModel.Proofs.Assembly.Amount
import SolidModel.Proofs.Assembly.Guards
import SolidModel.Proofs.Assembly.Moving

/-!
# One More Composition

What a composition on a component does to its body.

A body is folded from the compositions of its component in order, and it gets its color when all of
them are done. So one more composition is one more step of the fold, made on what the body was
before it got its color: that comes first, and the operands follow. If there was nothing to make a
body from, there are the operands alone.

This is not all that has to be seen. The fold starts from the children that are no operands, and an
operand of the new composition that is such a child is none any more. That is ruled out here. The
operands have to be what they were, and so has everything else that the component is made of. No
operand gets to the component, or the composition would have been refused, and nothing that the
component is made of gets back to it. Bodies change only where something below has changed, and a
composition moves nothing.

## Main definitions

* `Assembly.plainFrom`: What is made of the parts of a component before it gets its color.

## Theorems

* `Edit.compose_of_yields`: What a composition has done if it was not refused.
* `Assembly.plainFrom_composing`: One more composition is one more step.
* `Assembly.body_composing_of_not_reaches`: Whoever does not get to the component looks as before.
* `Assembly.Reachable.composing_body`: All of it about a reachable assembly.
-/

namespace SolidModel

open Relation

namespace Component

/-- A composition of anything but uncomposed children leaves the same children uncomposed. -/
theorem uncomposed_composing {c : Component} {composition : Composition}
    (h : ∀ operand ∈ composition.operands, operand ∉ c.uncomposed) :
    (c.composing composition).uncomposed = c.uncomposed := by
  refine List.filter_congr fun child hchild => decide_eq_decide.mpr (not_congr ?_)
  rw [composed, composing, List.flatMap_append, List.flatMap_singleton, List.mem_append]
  refine ⟨fun hmem => ?_, Or.inl⟩
  by_contra hnot
  refine h child (hmem.resolve_left hnot) (List.mem_filter.mpr ⟨hchild, ?_⟩)
  simpa only [decide_eq_true_eq]

end Component

namespace Edit

open Assembly

variable {a b : Assembly}

/-- An edit has one outcome. -/
theorem Yields.unique {α : Type} {e : Edit α} {value value' : α} {b' : Assembly}
    (h : e.Yields a value b) (h' : e.Yields a value' b') : value = value' ∧ b = b' :=
  ⟨Except.ok.inj (h.result.symm.trans h'.result), h.assembly.symm.trans h'.assembly⟩

/-- If a composition in place and without copies was not refused, it had operands that may be used,
    and it has been recorded. -/
theorem compose_of_yields {id result : ComponentId} {operator : Operator}
    {operands : List ComponentId} {adopts : Bool}
    (h : (compose id operator operands { copies := false, inPlace := true, adopts }).Yields
      a result b) :
    a.contains id = true ∧ (∀ operand ∈ operands, a.contains operand = true) ∧
      (a.checkInPlace id operands adopts).result = .ok () ∧ result = id ∧
      b = (a.modify id fun c => c.composing ⟨operator, operands⟩).concluded id operands adopts := by
  have hknown : a.contains id = true ∧ ∀ operand ∈ operands, a.contains operand = true := by
    by_contra hmissing
    rcases compose_of_unknown operator _ hmissing with ⟨missing, hrefused⟩
    cases h.result.symm.trans hrefused
  have hcheck : (a.checkInPlace id operands adopts).result = .ok () := by
    rcases (compose_decidedBy rfl rfl hknown.1 hknown.2).succeeds_iff.mp h.succeeds with
      ⟨_, hcheck⟩
    exact hcheck
  have hdone := composeOn_yields ⟨operator, operands⟩ hcheck
  rw [Yields, compose_eq_composeOn rfl rfl hknown.1 hknown.2] at h
  exact ⟨hknown.1, hknown.2, hcheck, Yields.unique h hdone⟩

end Edit

namespace Assembly

variable {a : Assembly} {id : ComponentId} {composition : Composition}

/-- What is made of the parts of a component before it gets its color, if there is anything. -/
def plainFrom (a : Assembly) (part : ComponentId → Except AssemblyError Body) (id : ComponentId)
    (c : Component) : Except AssemblyError (Option Body) := do
  let own := c.shape.map fun shape => a.place id (.primitive shape.primitive)
  let children ← c.uncomposed.mapM part
  c.compositions.foldlM (fun soFar composition => do
    let operands ← composition.operands.mapM part
    pure (some (enclose composition.operator soFar operands))) (base own children)

section Parts

variable {part : ComponentId → Except AssemblyError Body} {c : Component}

/-- What there is gets the color last, and there has to be something. -/
theorem bodyFrom_eq_bind : a.bodyFrom part id c = a.plainFrom part id c >>= fun composed =>
    composed.elim (.error (.noBody id)) fun plain => .ok (plain.paint c.color) := by
  rw [plainFrom, bind_assoc]
  unfold bodyFrom
  refine bind_congr fun children => bind_congr fun composed => ?_
  cases composed <;> rfl

/-- There is a body if there is anything to get the color. -/
theorem bodyFrom_eq_ok_iff {body : Body} : a.bodyFrom part id c = .ok body ↔
    ∃ plain, a.plainFrom part id c = .ok (some plain) ∧ body = plain.paint c.color := by
  rw [bodyFrom_eq_bind, Except.bind_eq_ok_iff]
  constructor
  · rintro ⟨_ | plain, hplain, hbody⟩
    · cases hbody
    · exact ⟨plain, hplain, (Except.ok.inj hbody).symm⟩
  · rintro ⟨plain, hplain, rfl⟩
    exact ⟨some plain, hplain, rfl⟩

/-- One more composition is one more step, made on what there was without it. The operands are no
    uncomposed children, or the step would be made on less than what there was: a child that becomes
    an operand is no longer shown by itself. -/
theorem plainFrom_composing (h : ∀ operand ∈ composition.operands, operand ∉ c.uncomposed) :
    a.plainFrom part id (c.composing composition) = (do
      let soFar ← a.plainFrom part id c
      let operands ← composition.operands.mapM part
      pure (some (enclose composition.operator soFar operands))) := by
  rw [plainFrom, Component.uncomposed_composing h]
  simp only [plainFrom, Component.composing, List.foldlM_append, List.foldlM_cons, List.foldlM_nil,
    bind_assoc, bind_pure]

/-- If there is nothing to make a body from there is nothing to get a color. -/
theorem plainFrom_of_bare (h : c.Bare) : a.plainFrom part id c = .ok none := by
  rcases h with ⟨hshape, hchildren, hcompositions⟩
  rw [plainFrom, hshape, Component.uncomposed, hchildren, hcompositions]
  rfl

end Parts

theorem direct_composing (a : Assembly) (id : ComponentId) (composition : Composition)
    (other : ComponentId) :
    (a.modify id fun c => c.composing composition).direct other = a.direct other := by
  rw [direct, get?_modify, direct]
  by_cases h : other = id
  · simp only [h, if_true]
    cases a.get? id <;> rfl
  · simp only [h, if_false]

/-- A composition moves nothing. -/
theorem history_composing (a : Assembly) (id : ComponentId) (composition : Composition)
    (other : ComponentId) :
    (a.modify id fun c => c.composing composition).history other = a.history other := by
  have hlineage : (a.modify id fun c => c.composing composition).lineage other =
      a.lineage other := by
    rw [lineage, ancestors, size_modify, parent?_composing,
      chain_congr (parent?_composing a id composition)]
    rfl
  rw [history_eq_flatMap, history_eq_flatMap, hlineage]
  exact List.flatMap_congr fun v _ => direct_composing a id composition v

namespace WellFormed

/-- Whoever does not get to the component has the body it had. -/
theorem body_composing_of_not_reaches (h : a.WellFormed) {other : ComponentId}
    (hother : ¬ a.Reaches other id) :
    (a.modify id fun c => c.composing composition).body other = a.body other := by
  have hkept : a.Kept (a.modify id fun c => c.composing composition) other :=
    { get?_eq := fun d hd => get?_modify_of_ne _ fun heq => hother (heq ▸ hd)
      history_eq := fun d _ => history_composing a id composition d }
  exact hkept.body_eq h (Nat.le_of_eq (size_modify a id _).symm)

/-- What the body of the component is made of has not changed, so that it is made as it was but for
    the new composition. -/
theorem body_composing (h : a.WellFormed) {c : Component} (hc : a.get? id = some c)
    (hknown : ∀ operand ∈ composition.operands, a.contains operand = true)
    (hreach : ∀ operand ∈ composition.operands, ¬ a.Reaches operand id) :
    (a.modify id fun c => c.composing composition).body id =
      a.bodyFrom a.body id (c.composing composition) := by
  have hid := contains_of_get? hc
  have hget := get?_modify_self (fun c => c.composing composition) hc
  rw [(h.composing hid hknown hreach).body_eq, find_eq_ok_iff.mpr hget, Except.ok_bind]
  -- No part is made of the component itself, and so none of them has changed.
  have hparts : ∀ y ∈ (c.composing composition).uses,
      (a.modify id fun c => c.composing composition).body y = a.body y := by
    intro y hy
    have huse : (a.modify id fun c => c.composing composition).Uses id y := by
      rw [Uses, uses_of_get? hget]
      exact hy
    refine h.body_composing_of_not_reaches fun hback => ?_
    rcases (uses_composing hid composition id y).mp huse with hold | ⟨_, hoperand⟩
    · exact h.acyclic id (TransGen.head' hold hback)
    · exact hreach y hoperand hback
  rw [bodyFrom_congr hparts]
  unfold bodyFrom place
  rw [history_composing]

end WellFormed

namespace Reachable

/-- A composition in place that neither copies nor adopts, of operands that have bodies and are no
    uncomposed children, combines what the component was before it got its color with the bodies of
    the operands, and gives the result that color. A component that was bare is then made of the
    operands alone.

    Nobody who does not get to the component looks different, and the operands are among them. So
    the bodies that are combined are the same whether they are asked for before the composition or
    afterwards. -/
theorem composing_body (h : a.Reachable) {result : ComponentId} {operator : Operator}
    {operands : List ComponentId} {bodies : List Body} {b : Assembly} {c : Component}
    (hc : a.get? id = some c) (hapart : ∀ operand ∈ operands, operand ∉ c.uncomposed)
    (hbodies : List.Forall₂ (fun operand body => a.body operand = .ok body) operands bodies)
    (hyields : (Edit.compose id operator operands
      { copies := false, inPlace := true, adopts := false }).Yields a result b) :
    (∀ body, a.body id = .ok body → ∃ plain : Body, body = plain.paint c.color ∧
        b.body id = .ok ((Body.composition operator (plain :: bodies)).paint c.color)) ∧
      (c.Bare → b.body id = .ok ((Body.composition operator bodies).paint c.color)) ∧
      (∀ operand ∈ operands, b.body operand = a.body operand) ∧
      ∀ other, ¬ a.Reaches other id → b.body other = a.body other := by
  have hwf := h.wellFormed
  rcases Edit.compose_of_yields hyields with ⟨_, hknown, hcheck, _, hb⟩
  have hreach := (checkInPlace_eq_ok_iff.mp hcheck).1
  have hrecorded : b = a.modify id fun c => c.composing ⟨operator, operands⟩ := hb
  -- The body is enclosed before it is painted, and the color has not changed.
  have hstep : ∀ soFar, a.plainFrom a.body id c = .ok soFar →
      b.body id = .ok ((enclose operator soFar bodies).paint c.color) := by
    intro soFar hsoFar
    rw [hrecorded, hwf.body_composing hc hknown hreach]
    refine bodyFrom_eq_ok_iff.mpr ⟨_, ?_, rfl⟩
    rw [plainFrom_composing hapart, hsoFar, Except.ok_bind, Except.mapM_eq_ok_iff.mpr hbodies]
    rfl
  have hothers : ∀ other, ¬ a.Reaches other id → b.body other = a.body other := fun other hother =>
    hrecorded ▸ hwf.body_composing_of_not_reaches hother
  refine ⟨fun body hbody => ?_, fun hbare => hstep none (plainFrom_of_bare hbare),
    fun operand hoperand => hothers operand (hreach operand hoperand), hothers⟩
  rw [hwf.body_eq, find_eq_ok_iff.mpr hc, Except.ok_bind] at hbody
  rcases bodyFrom_eq_ok_iff.mp hbody with ⟨plain, hplain, hpaint⟩
  exact ⟨plain, hpaint, hstep (some plain) hplain⟩

/-- A colored sphere, from which another one is taken away twice. -/
theorem composing_body_twice :
    let color : Color := ⟨1, 0, 0, 1⟩
    let first : Component := { shape := some (.sphere 1), color := some color }
    let second : Component := { shape := some (.sphere 2) }
    let operands : List ComponentId := [⟨2⟩, ⟨2⟩]
    let a : Assembly := ⟨#[first, second]⟩
    let b : Assembly := ⟨#[first.composing ⟨.difference, operands⟩, second]⟩
    let ball (radius : Float) : Body := .primitive (Shape.sphere radius).primitive
    a.Reachable ∧ a.get? ⟨1⟩ = some first ∧ (∀ operand ∈ operands, operand ∉ first.uncomposed) ∧
      List.Forall₂ (fun operand body => a.body operand = .ok body) operands [ball 2, ball 2] ∧
      (Edit.compose ⟨1⟩ .difference operands
        { copies := false, inPlace := true, adopts := false }).Yields a ⟨1⟩ b ∧
      a.body ⟨1⟩ = .ok (.colored color (ball 1)) ∧
      b.body ⟨1⟩ = .ok (.colored color (.composition .difference [ball 1, ball 2, ball 2])) ∧
      b.body ⟨2⟩ = a.body ⟨2⟩ := by
  intro color first second operands a b ball
  have h : a.Reachable := ((Reachable.empty.step (.add (.sphere 1))).step (.add (.sphere 2))).step
    (.setColor ⟨1⟩ (some color))
  have hapart : ∀ operand ∈ operands, operand ∉ first.uncomposed := by decide
  have hball : a.body ⟨2⟩ = .ok (ball 2) := rfl
  have hbodies : List.Forall₂ (fun operand body => a.body operand = .ok body) operands
      [ball 2, ball 2] := .cons hball (.cons hball .nil)
  have hcheck : (a.checkInPlace ⟨1⟩ operands false).result = .ok () := by
    refine checkInPlace_eq_ok_iff.mpr ⟨fun operand hoperand => ?_, fun hadopts => nomatch hadopts⟩
    rw [List.eq_of_mem_replicate (show operand ∈ List.replicate 2 ⟨2⟩ from hoperand)]
    exact not_reaches_of_uses_eq_nil rfl (by decide)
  have hyields : (Edit.compose ⟨1⟩ .difference operands
      { copies := false, inPlace := true, adopts := false }).Yields a ⟨1⟩ b := by
    rw [Edit.Yields, Edit.compose_eq_composeOn rfl rfl rfl (by decide)]
    exact Edit.composeOn_yields ⟨.difference, operands⟩ hcheck
  rcases h.composing_body rfl hapart hbodies hyields with ⟨hbody, _, hoperands, _⟩
  rcases hbody _ rfl with ⟨plain, hplain, hafter⟩
  have hsame : ball 1 = plain := (Body.colored.inj hplain).2
  rw [← hsame] at hafter
  exact ⟨h, rfl, hapart, hbodies, hyields, rfl, hafter, hoperands ⟨2⟩ List.mem_cons_self⟩

end Reachable

end Assembly

end SolidModel
