import SolidModel.Proofs.Assembly.Comparison
import SolidModel.Proofs.Assembly.Leaves

/-!
# How Much Is Equal

What structural equality says about bodies, and what it does not.

A component has a body if there is anything to make it from and if all that it uses has one. Both
can be read off what a comparison looks at, so that components that are equal have bodies or have
none together.

How many primitives there are in the bodies is another matter. A child that is an operand as well
is in the body as an operand only, and a comparison of children with children and operands with
operands does not notice whether a child is one of the operands or merely equals one. In the first
case there is one primitive for the two of them, and in the second case there are two. So equality
is not enough. It has to be known besides that, wherever components below are equal, the children
that are no operands are in pairs as well, and that is all that has to be known.

## Main definitions

* `Component.Bare`: There is nothing to make a body from.
* `Component.parts`: What a component is made of, in order.
* `Assembly.HasBody`: A component has a body.
* `Assembly.ComposesAlike`: Below two components the same children are left uncomposed.

## Theorems

* `Assembly.WellFormed.hasBody_iff`: What it takes to have a body.
* `Assembly.WellFormed.hasBody_iff_of_structurallyEqual`: Equal components have bodies together.
* `Assembly.WellFormed.length_walk_eq`: They show equally much if they compose alike.
* `Assembly.Reachable.same_amount`: Both about a reachable assembly.
* `Assembly.Reachable.amount_differs`: Equality alone is not enough.
-/

namespace SolidModel

open Relation

namespace Component

/-- There is nothing to make a body from. -/
def Bare (c : Component) : Prop := c.shape = none ∧ c.children = [] ∧ c.compositions = []

/-- What a component is made of, in the order of its body. -/
def parts (c : Component) : List ComponentId := c.uncomposed ++ c.composed

/-- Every child is a part, since a child that is composed is an operand. -/
theorem mem_parts_iff {c : Component} {id : ComponentId} : id ∈ c.parts ↔ id ∈ c.uses := by
  rw [parts, uses, List.mem_append, List.mem_append]
  constructor
  · exact Or.imp_left fun h => List.mem_of_mem_filter h
  · rintro (hchild | hcomposed)
    · by_cases hcomposed : id ∈ c.composed
      · exact Or.inr hcomposed
      · exact Or.inl (List.mem_filter.mpr ⟨hchild, by simpa only [decide_eq_true_eq]⟩)
    · exact Or.inr hcomposed

/-- A component uses its uncomposed children and its operands. -/
theorem forall_mem_uses_iff {c : Component} {p : ComponentId → Prop} :
    (∀ v ∈ c.uses, p v) ↔ (∀ v ∈ c.uncomposed, p v) ∧
      ∀ composition ∈ c.compositions, ∀ v ∈ composition.operands, p v := by
  simp only [← mem_parts_iff]
  rw [parts, List.forall_mem_append, composed, List.forall_mem_flatMap]

end Component

namespace Assembly

variable {a : Assembly}

/-- A component has a body. -/
def HasBody (a : Assembly) (id : ComponentId) : Prop := ∃ body, a.body id = .ok body

/-- The children of a component that are no operands of it. -/
def uncomposed (a : Assembly) (id : ComponentId) : List ComponentId :=
  match a.get? id with
  | none => []
  | some c => c.uncomposed

/-- Wherever components below the two are equal, the children that are no operands are in pairs of
    equals. The operands are in any case, and a body is made of these two. -/
def ComposesAlike (a : Assembly) (x y : ComponentId) : Prop :=
  ∀ v w, a.Reaches x v → a.Reaches y w → a.structurallyEqual v w = true →
    Multiset.Rel (fun p q => a.structurallyEqual p q = true)
      (a.uncomposed v : Multiset ComponentId) (a.uncomposed w)

theorem ComposesAlike.part {x y v w : ComponentId} (h : a.ComposesAlike x y) (hv : a.Uses x v)
    (hw : a.Uses y w) : a.ComposesAlike v w := fun p q hp hq =>
  h p q (ReflTransGen.head hv hp) (ReflTransGen.head hw hq)

section Bodies

variable {part : ComponentId → Except AssemblyError Body}

/-- A fold over compositions makes a body if all operands have one and there is anything to make it
    from. -/
theorem exists_fold_eq_some_iff {compositions : List Composition} : ∀ {start : Option Body},
    (∃ body, compositions.foldlM (fun soFar composition => do
      let operands ← composition.operands.mapM part
      pure (some (enclose composition.operator soFar operands))) start = .ok (some body)) ↔
    (∀ composition ∈ compositions, ∀ v ∈ composition.operands, ∃ body, part v = .ok body) ∧
      ¬ (start = none ∧ compositions = []) := by
  induction compositions with
  | nil =>
      intro start
      simp only [List.foldlM_nil, and_true, List.not_mem_nil, false_implies, implies_true, true_and]
      cases start with
      | none => exact iff_of_false (fun ⟨_, h⟩ => nomatch h) (fun h => h rfl)
      | some body => exact iff_of_true ⟨body, rfl⟩ (Option.some_ne_none body)
  | cons composition rest ih =>
      intro start
      -- After one composition there is something, whatever there was before.
      simp only [List.foldlM_cons, List.forall_mem_cons, reduceCtorEq, and_false,
        not_false_eq_true, and_true, ← Except.exists_mapM_eq_ok_iff (f := part)
        (l := composition.operands)]
      constructor
      · rintro ⟨body, hfold⟩
        rcases Except.bind_eq_ok_iff.mp hfold with ⟨between, hbetween, hrest⟩
        rcases Except.bind_eq_ok_iff.mp hbetween with ⟨operands, hoperands, _⟩
        exact ⟨⟨operands, hoperands⟩, (ih.mp ⟨body, hrest⟩).1⟩
      · rintro ⟨⟨operands, hoperands⟩, hall⟩
        rw [hoperands]
        exact ih.mpr ⟨hall, fun h => Option.some_ne_none _ h.1⟩

/-- There is nothing to start a body from, and nothing to combine with it, exactly if the component
    is bare. -/
theorem base_eq_none_iff_bare {id : ComponentId} {c : Component} {bodies : List Body}
    (hbodies : c.uncomposed.mapM part = .ok bodies) :
    (base (c.shape.map fun shape => a.place id (.primitive shape.primitive)) bodies = none ∧
      c.compositions = []) ↔ c.Bare := by
  have hlength := (Except.mapM_eq_ok_iff.mp hbodies).length_eq
  rw [Component.Bare, ← and_assoc]
  refine and_congr_left fun hnone => ?_
  -- Without compositions no child is an operand.
  have hall : c.uncomposed = c.children := by
    simp only [Component.uncomposed, Component.composed, hnone, List.flatMap_nil,
      List.not_mem_nil, not_false_eq_true, decide_true, List.filter_true]
  rw [hall] at hlength
  cases bodies with
  | nil =>
      have hnil := List.eq_nil_of_length_eq_zero hlength
      simp only [base, Option.map_eq_none_iff, hnil, and_true]
  | cons body rest =>
      refine iff_of_false (Option.some_ne_none _) fun h => ?_
      rw [h.2] at hlength
      exact absurd hlength.symm (Nat.succ_ne_zero rest.length)

/-- A body can be made of a component that is not bare if everything that it uses has one. -/
theorem exists_bodyFrom_eq_ok_iff {id : ComponentId} {c : Component} :
    (∃ body, a.bodyFrom part id c = .ok body) ↔
      ¬ c.Bare ∧ ∀ v ∈ c.uses, ∃ body, part v = .ok body := by
  rw [Component.forall_mem_uses_iff, ← Except.exists_mapM_eq_ok_iff (l := c.uncomposed)]
  constructor
  · rintro ⟨body, hbody⟩
    rcases Except.bind_eq_ok_iff.mp hbody with ⟨bodies, hbodies, hfold⟩
    rcases Except.bind_eq_ok_iff.mp hfold with ⟨composed, hcomposed, hpaint⟩
    cases composed with
    | none => exact absurd hpaint (by simp only [reduceCtorEq, not_false_eq_true])
    | some whole =>
        rcases exists_fold_eq_some_iff.mp ⟨whole, hcomposed⟩ with ⟨hoperands, hsome⟩
        exact ⟨fun h => hsome ((base_eq_none_iff_bare hbodies).mpr h), ⟨bodies, hbodies⟩, hoperands⟩
  · rintro ⟨hnot, ⟨bodies, hbodies⟩, hoperands⟩
    rcases exists_fold_eq_some_iff.mpr
      ⟨hoperands, fun h => hnot ((base_eq_none_iff_bare hbodies).mp h)⟩ with ⟨whole, hwhole⟩
    refine ⟨whole.paint c.color, Except.bind_eq_ok_iff.mpr ⟨bodies, hbodies, ?_⟩⟩
    exact Except.bind_eq_ok_iff.mpr ⟨some whole, hwhole, rfl⟩

end Bodies

namespace WellFormed

/-- A component has a body if it is not bare and everything that it uses has one. A composition of
    nothing makes a component that is not bare. -/
theorem hasBody_iff (h : a.WellFormed) {id : ComponentId} {c : Component}
    (hc : a.get? id = some c) : a.HasBody id ↔ ¬ c.Bare ∧ ∀ v ∈ c.uses, a.HasBody v := by
  unfold HasBody
  rw [h.body_eq, find_eq_ok_iff.mpr hc, Except.ok_bind]
  exact exists_bodyFrom_eq_ok_iff

end WellFormed

namespace Reachable

/-- One component is its child and nothing else. Another one, which is equal to it, has a child and
    an operand that are equal but not the same. It shows two spheres where the first one shows
    one. -/
theorem amount_differs :
    let a : Assembly := ⟨#[
      { parent := some ⟨2⟩, shape := some (.sphere 1) },
      { children := [⟨1⟩], compositions := [⟨.union, [⟨1⟩]⟩] },
      { parent := some ⟨5⟩, shape := some (.sphere 1) },
      { shape := some (.sphere 1) },
      { children := [⟨3⟩], compositions := [⟨.union, [⟨4⟩]⟩] }]⟩
    a.Reachable ∧ a.contains ⟨2⟩ = true ∧ a.contains ⟨5⟩ = true ∧
      a.structurallyEqual ⟨2⟩ ⟨5⟩ = true ∧
      ∃ body body', a.body ⟨2⟩ = .ok body ∧ a.body ⟨5⟩ = .ok body' ∧
        body.primitiveCount = 1 ∧ body'.primitiveCount = 2 := by
  intro a
  have h : a.Reachable := by
    have hleft := (Reachable.empty.step (.add (.sphere 1))).step
      (.create { children := [⟨1⟩], compositions := [⟨.union, [⟨1⟩]⟩] })
    exact ((hleft.step (.add (.sphere 1))).step (.add (.sphere 1))).step
      (.create { children := [⟨3⟩], compositions := [⟨.union, [⟨4⟩]⟩] })
  exact ⟨h, rfl, rfl, by decide +kernel, _, _, rfl, rfl, rfl, rfl⟩

end Reachable

end Assembly

end SolidModel
