import Mathlib
import SolidModel.Proofs.Assembly.Reachable

/-!
# Structural Comparison

What a comparison of two components says, and that it is fair to both of them.

A comparison asks for the same solid under the same steps, and for links that pair off: children
with children, and compositions with compositions of the same operator whose operands pair off with
theirs. Two components that are equal therefore have their parts in pairs of equals
(`Component.Pairs`), without regard to order.

On the way it goes from the left to the right. It takes the first equal that is left, three levels
deep, and it takes a component for equal to itself without looking. That it is an equivalence all
the same cannot be shown for one of its properties alone. Pairing off is symmetric and transitive if
the comparison of parts has both properties, and so the two go down the links together, as far as
the links go. At the bottom there is nothing to compare but shapes and steps.

## Main definitions

* `Component.Pairs`: The links of two components pair off.
* `Assembly.shapes`, `Assembly.steps`: The shapes and transformations that are stored.

## Theorems

* `Assembly.pairs_of_equalFrom`: What a comparison establishes.
* `Assembly.WellFormed.structurallyEqual_iff`: When different components are equal.
* `Assembly.WellFormed.structurallyEqual_induction`: What parts that are equal hand on to wholes.
* `Assembly.equalFrom_partialEquivalence`: A comparison is as fair as those of parts and leaves.
* `Assembly.Reachable.structurallyEqual_equivalence`: Structural equality is an equivalence if the
  comparisons of what is stored are.
-/

namespace SolidModel

/-- Where the elements of each pair weigh the same, so do both sides. -/
theorem sum_eq_of_rel {α β : Type} {f : α → Nat} {g : β → Nat} {left : List α} {right : List β}
    (h : Multiset.Rel (fun x y => f x = g y) (left : Multiset α) (right : Multiset β)) :
    (left.map f).sum = (right.map g).sum := by
  have hmap := Multiset.rel_eq.mp (Multiset.rel_map.mpr h)
  rw [Multiset.map_coe, Multiset.map_coe] at hmap
  exact (Multiset.coe_eq_coe.mp hmap).sum_nat

/-- Two compositions have one operator, and their operands are in pairs. -/
structure Composition.Pairs (part : ComponentId → ComponentId → Prop) (p q : Composition) :
    Prop where
  /-- They combine in the same way. -/
  operator : p.operator = q.operator
  /-- What they combine is in pairs, whatever the order. -/
  operands : Multiset.Rel part (p.operands : Multiset ComponentId) q.operands

/-- The children of two components are in pairs, and so are their compositions. -/
structure Component.Pairs (part : ComponentId → ComponentId → Prop) (left right : Component) :
    Prop where
  /-- Every child has a partner among the children on the other side. -/
  children : Multiset.Rel part (left.children : Multiset ComponentId) right.children
  /-- Every composition has a partner among the compositions on the other side. -/
  compositions : Multiset.Rel (Composition.Pairs part)
    (left.compositions : Multiset Composition) right.compositions

namespace Component.Pairs

variable {part part' : ComponentId → ComponentId → Prop} {left right : Component}

/-- Pairs may be weakened where the links are known. -/
theorem imp (h : Component.Pairs part left right)
    (himp : ∀ v ∈ left.uses, ∀ w ∈ right.uses, part v w → part' v w) :
    Component.Pairs part' left right where
  children := h.children.mono fun v hv w hw =>
    himp v (List.mem_append_left _ hv) w (List.mem_append_left _ hw)
  compositions := h.compositions.mono fun _ hp _ hq hpq => ⟨hpq.operator, hpq.operands.mono
    fun v hv w hw => himp v (mem_uses_of_mem_operands hp hv) w (mem_uses_of_mem_operands hq hw)⟩

/-- Pairs may be told from the right. -/
theorem flip (h : Component.Pairs part left right) :
    Component.Pairs (fun w v => part v w) right left where
  children := Multiset.rel_flip.mpr h.children
  compositions := Multiset.rel_flip.mpr (h.compositions.mono fun _ _ _ _ hpq =>
    ⟨hpq.operator.symm, Multiset.rel_flip.mpr hpq.operands⟩)

/-- Whatever the left component uses is in a pair. -/
theorem exists_of_mem_uses (h : Component.Pairs part left right) {v : ComponentId}
    (hv : v ∈ left.uses) : ∃ w ∈ right.uses, part v w := by
  rcases List.mem_append.mp hv with hv | hv
  · rcases Multiset.exists_mem_of_rel_of_mem h.children hv with ⟨w, hw, hvw⟩
    exact ⟨w, List.mem_append_left _ hw, hvw⟩
  · rcases mem_composed.mp hv with ⟨p, hp, hv⟩
    rcases Multiset.exists_mem_of_rel_of_mem h.compositions hp with ⟨q, hq, hpq⟩
    rcases Multiset.exists_mem_of_rel_of_mem hpq.operands hv with ⟨w, hw, hvw⟩
    exact ⟨w, mem_uses_of_mem_operands hq hw, hvw⟩

/-- If the parts in each pair weigh the same, so do all children, and so do all operands. -/
theorem sum_eq {weight : ComponentId → Nat}
    (h : Component.Pairs (fun v w => weight v = weight w) left right) :
    (left.children.map weight).sum = (right.children.map weight).sum ∧
      (left.compositions.map fun p => (p.operands.map weight).sum).sum =
        (right.compositions.map fun p => (p.operands.map weight).sum).sum :=
  ⟨sum_eq_of_rel h.children,
    sum_eq_of_rel (h.compositions.mono fun _ _ _ _ hpq => sum_eq_of_rel hpq.operands)⟩

end Component.Pairs

/-- Lists that are compared in order are compared fairly if their elements are. -/
theorem PartialEquivalenceOn.isCloseList {kind : Transformation → Prop}
    (h : PartialEquivalenceOn kind Transformation.isClose) :
    PartialEquivalenceOn (fun steps : List Transformation => ∀ step ∈ steps, kind step)
      Transformation.isCloseList where
  -- Lists are compared step by step, and so both properties follow the first of them.
  symm {l l'} hl hl' hclose := by
    induction l generalizing l' with
    | nil =>
        cases l' with
        | nil => rfl
        | cons t rest' => exact absurd hclose Bool.false_ne_true
    | cons s rest ih =>
        cases l' with
        | nil => exact absurd hclose Bool.false_ne_true
        | cons t rest' =>
            rw [List.forall_mem_cons] at hl hl'
            rw [Transformation.isCloseList, Bool.and_eq_true] at hclose ⊢
            exact ⟨h.symm hl.1 hl'.1 hclose.1, ih hl.2 hl'.2 hclose.2⟩
  trans {l l' l''} hl hl' hl'' hclose hclose' := by
    induction l generalizing l' l'' with
    | nil =>
        cases l' with
        | nil => exact hclose'
        | cons t rest' => exact absurd hclose Bool.false_ne_true
    | cons s rest ih =>
        cases l' with
        | nil => exact absurd hclose Bool.false_ne_true
        | cons t rest' =>
            cases l'' with
            | nil => exact absurd hclose' Bool.false_ne_true
            | cons u rest'' =>
                rw [List.forall_mem_cons] at hl hl' hl''
                rw [Transformation.isCloseList, Bool.and_eq_true] at hclose hclose' ⊢
                exact ⟨h.trans hl.1 hl'.1 hl''.1 hclose.1 hclose'.1,
                  ih hl.2 hl'.2 hl''.2 hclose.2 hclose'.2⟩

namespace Assembly

variable {a : Assembly}

/-- All shapes that are stored, in the order of the table. -/
def shapes (a : Assembly) : List Shape := a.components.toList.filterMap Component.shape

/-- All transformations that are stored with a component, in the order of the table. A history is
    made of these, so that a comparison of histories is one of them. -/
def steps (a : Assembly) : List Transformation := a.components.toList.flatMap Component.direct

theorem mem_components_of_get? {id : ComponentId} {c : Component} (h : a.get? id = some c) :
    c ∈ a.components.toList := by
  rcases id with ⟨n⟩
  cases n with
  | zero => exact absurd h (by simp only [get?, reduceCtorEq, not_false_eq_true])
  | succ n => exact Array.mem_toList_iff.mpr (Array.mem_of_getElem? h)

theorem mem_shapes_of_get? {id : ComponentId} {c : Component} (h : a.get? id = some c) :
    ∀ shape ∈ c.shape, shape ∈ a.shapes :=
  fun _ hshape => List.mem_filterMap.mpr ⟨c, mem_components_of_get? h, hshape⟩

theorem mem_steps_of_mem_history {id : ComponentId} : ∀ step ∈ a.history id, step ∈ a.steps := by
  intro step hstep
  rcases List.mem_flatMap.mp hstep with ⟨z, _, hz⟩
  rw [direct] at hz
  split at hz
  · exact absurd hz List.not_mem_nil
  · next c hc => exact List.mem_flatMap.mpr ⟨c, mem_components_of_get? hc, hz⟩

/-- If two components are equal as far as parts go, they are the same solid under the same steps,
    and their links are in pairs of equals. The converse is not true in general: pairs may be there,
    and the search for them may miss them. -/
theorem pairs_of_equalFrom {equal : ComponentId → ComponentId → Bool} {x y : ComponentId}
    {left right : Component} (h : a.equalFrom equal x y left right = true) :
    sameOption Shape.same left.shape right.shape = true ∧
      Transformation.isCloseList (a.history x) (a.history y) = true ∧
      Component.Pairs (fun v w => equal v w = true) left right := by
  simp only [equalFrom, Bool.and_eq_true] at h
  rcases h with ⟨⟨⟨hshape, hhistory⟩, hchildren⟩, hcompositions⟩
  refine ⟨hshape, hhistory, rel_of_pairsOff hchildren,
    (rel_of_pairsOff hcompositions).mono fun p _ q _ hpq => ?_⟩
  rw [Bool.and_eq_true, beq_iff_eq] at hpq
  exact ⟨hpq.1, rel_of_pairsOff hpq.2⟩

/-- A component equals itself if it is there. -/
theorem structurallyEqual_self (a : Assembly) (x : ComponentId) :
    a.structurallyEqual x x = a.contains x := by
  rw [structurallyEqual, structurallyEqualWithin_succ, if_pos rfl]

/-- Different components are equal if they are there and a comparison of them succeeds. -/
theorem WellFormed.structurallyEqual_iff (h : a.WellFormed) {x y : ComponentId} (hne : x ≠ y) :
    a.structurallyEqual x y = true ↔ ∃ left right, a.get? x = some left ∧ a.get? y = some right ∧
      a.equalFrom a.structurallyEqual x y left right = true := by
  constructor
  · intro hequal
    have hthere := hequal
    rw [structurallyEqual, structurallyEqualWithin_succ, if_neg hne] at hthere
    split at hthere
    · next left right hx hy =>
        rw [h.structurallyEqual_eq hne hx hy] at hequal
        exact ⟨left, right, hx, hy, hequal⟩
    · exact absurd hthere Bool.false_ne_true
  · rintro ⟨left, right, hx, hy, hequal⟩
    rw [h.structurallyEqual_eq hne hx hy]
    exact hequal

/-- What is equal is there. -/
theorem WellFormed.contains_of_structurallyEqual (h : a.WellFormed) {x y : ComponentId}
    (hequal : a.structurallyEqual x y = true) : a.contains x = true ∧ a.contains y = true := by
  by_cases hne : x = y
  · rw [← hne, structurallyEqual_self] at hequal
    exact ⟨hequal, hne ▸ hequal⟩
  · rcases (h.structurallyEqual_iff hne).mp hequal with ⟨left, right, hx, hy, _⟩
    exact ⟨contains_of_get? hx, contains_of_get? hy⟩

/-- What holds of every component and itself, and of two components with the same contents if it
    holds of all their equal parts, holds of all components that are equal. The induction goes down
    the links of the left one. A component is taken for equal to itself without a look at its parts,
    which is why this case is asked for by itself. -/
theorem WellFormed.structurallyEqual_induction (h : a.WellFormed)
    {motive : ComponentId → ComponentId → Prop} (hself : ∀ x, motive x x)
    (hstep : ∀ {x y : ComponentId} {left right : Component}, a.get? x = some left →
      a.get? y = some right → a.structurallyEqual x y = true →
      a.equalFrom a.structurallyEqual x y left right = true →
      (∀ v ∈ left.uses, ∀ w, a.structurallyEqual v w = true → motive v w) → motive x y)
    {x y : ComponentId} (hequal : a.structurallyEqual x y = true) : motive x y := by
  -- The induction is on how far down a walk from the first component goes.
  suffices hall : ∀ depth {x y : ComponentId}, EndsWithin a.uses depth x →
      a.structurallyEqual x y = true → motive x y by
    exact hall _ (h.usesEnd x) hequal
  intro depth
  induction depth with
  | zero => exact fun hends => hends.elim
  | succ depth ih =>
      intro x y hends hequal
      by_cases hne : x = y
      · rw [hne]
        exact hself y
      · rcases (h.structurallyEqual_iff hne).mp hequal with ⟨left, right, hx, hy, hfrom⟩
        exact hstep hx hy hequal hfrom fun v hv w =>
          ih (hends v (by rw [uses_of_get? hx]; exact hv))

/-- A comparison of components is symmetric and transitive if those of parts, of shapes and of steps
    are. It is stated for pairs of an id and the component that is found there, since the comparison
    reads both, and parts are only asked about if they belong to such a component. -/
theorem equalFrom_partialEquivalence {equal : ComponentId → ComponentId → Bool}
    {part : ComponentId → Prop}
    (hshapes : PartialEquivalenceOn (· ∈ a.shapes) Shape.same)
    (hsteps : PartialEquivalenceOn (· ∈ a.steps) Transformation.isClose)
    (hparts : PartialEquivalenceOn part equal) :
    PartialEquivalenceOn
      (fun u : ComponentId × Component => a.get? u.1 = some u.2 ∧ ∀ v ∈ u.2.uses, part v)
      fun u w => a.equalFrom equal u.1 w.1 u.2 w.2 := by
  have hcompositions : PartialEquivalenceOn (fun p : Composition => ∀ v ∈ p.operands, part v)
      fun p q => p.operator == q.operator && pairsOff equal p.operands q.operands :=
    (PartialEquivalenceOn.beq.comap Composition.operator fun _ _ => trivial).and
      (hparts.pairsOff.comap Composition.operands fun _ hp => hp)
  -- Shapes, histories, children and compositions are compared apart.
  refine PartialEquivalenceOn.and (PartialEquivalenceOn.and (PartialEquivalenceOn.and ?_ ?_) ?_) ?_
  · exact hshapes.sameOption.comap (fun u : ComponentId × Component => u.2.shape)
      fun _ hu => mem_shapes_of_get? hu.1
  · exact hsteps.isCloseList.comap (fun u : ComponentId × Component => a.history u.1)
      fun _ _ => mem_steps_of_mem_history
  · exact hparts.pairsOff.comap (fun u : ComponentId × Component => u.2.children)
      fun _ hu v hv => hu.2 v (List.mem_append_left _ hv)
  · exact hcompositions.pairsOff.comap (fun u : ComponentId × Component => u.2.compositions)
      fun _ hu _ hp v hv => hu.2 v (Component.mem_uses_of_mem_operands hp hv)

/-- Structural equality is symmetric and transitive as far down as walks end. -/
theorem WellFormed.structurallyEqual_partialEquivalence (h : a.WellFormed)
    (hshapes : PartialEquivalenceOn (· ∈ a.shapes) Shape.same)
    (hsteps : PartialEquivalenceOn (· ∈ a.steps) Transformation.isClose) (depth : Nat) :
    PartialEquivalenceOn (EndsWithin a.uses depth) a.structurallyEqual := by
  -- Neither property goes down by itself: to pair off from the right takes both of them below.
  induction depth with
  | zero => exact ⟨fun hx => hx.elim, fun hx => hx.elim⟩
  | succ depth ih =>
      have hfrom := equalFrom_partialEquivalence hshapes hsteps ih
      have hkind : ∀ {x : ComponentId} {c : Component}, a.get? x = some c →
          EndsWithin a.uses (depth + 1) x →
          a.get? (x, c).1 = some (x, c).2 ∧ ∀ v ∈ (x, c).2.uses, EndsWithin a.uses depth v :=
        fun hc hx => ⟨hc, fun v hv => hx v (by rw [uses_of_get? hc]; exact hv)⟩
      refine ⟨fun {x y} hx hy hxy => ?_, fun {x y z} hx hy hz hxy hyz => ?_⟩
      · by_cases hne : x = y
        · rwa [← hne] at hxy ⊢
        · rcases (h.structurallyEqual_iff hne).mp hxy with ⟨left, right, hleft, hright, hequal⟩
          refine (h.structurallyEqual_iff (Ne.symm hne)).mpr ⟨right, left, hright, hleft, ?_⟩
          exact hfrom.symm (hkind hleft hx) (hkind hright hy) hequal
      · -- A component is not compared with itself, so the way there and back is a case of its own.
        by_cases hxz : x = z
        · rw [← hxz, structurallyEqual_self]
          exact (h.contains_of_structurallyEqual hxy).1
        by_cases hne : x = y
        · rwa [hne]
        by_cases hne' : y = z
        · rwa [← hne']
        rcases (h.structurallyEqual_iff hne).mp hxy with ⟨left, middle, hleft, hmiddle, hequal⟩
        rcases (h.structurallyEqual_iff hne').mp hyz with ⟨_, right, hmiddle', hright, hequal'⟩
        cases hmiddle.symm.trans hmiddle'
        refine (h.structurallyEqual_iff hxz).mpr ⟨left, right, hleft, hright, ?_⟩
        exact hfrom.trans (hkind hleft hx) (hkind hmiddle hy) (hkind hright hz) hequal hequal'

/-- A comparison that tells all different values of a list apart is an equivalence of them. -/
theorem equivalence_of_eq {α : Type} {l : List α} {equal : α → α → Bool}
    (hself : ∀ x ∈ l, equal x x = true) (heq : ∀ x ∈ l, ∀ y ∈ l, equal x y = true → x = y) :
    Equivalence fun x y : { x // x ∈ l } => equal x y = true where
  refl x := hself x x.2
  symm {x y} hxy := by
    rw [← heq x x.2 y y.2 hxy]
    exact hself x x.2
  trans {x y z} hxy hyz := by
    rw [heq x x.2 y y.2 hxy]
    exact hyz

namespace Reachable

/-- If the shapes that are stored in a reachable assembly are compared by an equivalence, and the
    transformations too, structural equality of the components is an equivalence.

    Nothing is asked of shapes and transformations that are not stored. In general their comparison
    is neither symmetric nor transitive, as it goes by a tolerance. Only components that are there
    are compared, since an id that names nothing does not even equal itself. -/
theorem structurallyEqual_equivalence (h : a.Reachable)
    (hshapes : Equivalence fun s t : { s // s ∈ a.shapes } => Shape.same s t = true)
    (hsteps : Equivalence fun s t : { s // s ∈ a.steps } => Transformation.isClose s t = true) :
    Equivalence fun x y : { id // a.contains id = true } => a.structurallyEqual x y = true := by
  have hwf := h.wellFormed
  have hequal := hwf.structurallyEqual_partialEquivalence
    (PartialEquivalenceOn.of_equivalence hshapes) (PartialEquivalenceOn.of_equivalence hsteps)
    (a.size + 1)
  refine ⟨fun x => ?_, fun hxy => ?_, fun hxy hyz => ?_⟩
  · rw [structurallyEqual_self]
    exact x.2
  · exact hequal.symm (hwf.usesEnd _) (hwf.usesEnd _) hxy
  · exact hequal.trans (hwf.usesEnd _) (hwf.usesEnd _) (hwf.usesEnd _) hxy hyz

/-- Two raised pairs of spheres, with the children in different orders and a composition each. -/
theorem structurallyEqual_equivalence_reordered :
    let raise : Transformation := .translate ⟨0, 0, 1⟩
    let a : Assembly := ⟨#[
      { parent := some ⟨3⟩, shape := some (.sphere 1) },
      { parent := some ⟨3⟩, shape := some (.sphere 2) },
      { children := [⟨1⟩, ⟨2⟩], compositions := [⟨.difference, [⟨2⟩, ⟨1⟩]⟩], direct := [raise] },
      { parent := some ⟨6⟩, shape := some (.sphere 1) },
      { parent := some ⟨6⟩, shape := some (.sphere 2) },
      { children := [⟨5⟩, ⟨4⟩], compositions := [⟨.difference, [⟨4⟩, ⟨5⟩]⟩], direct := [raise] }]⟩
    a.Reachable ∧
      (Equivalence fun x y : { id // a.contains id = true } => a.structurallyEqual x y = true) ∧
      a.structurallyEqual ⟨3⟩ ⟨6⟩ = true ∧ a.structurallyEqual ⟨6⟩ ⟨3⟩ = true := by
  intro raise a
  have h : a.Reachable := by
    have hleft := ((Reachable.empty.step (.add (.sphere 1))).step (.add (.sphere 2))).step
      (.create { children := [⟨1⟩, ⟨2⟩], compositions := [⟨.difference, [⟨2⟩, ⟨1⟩]⟩] })
    have hright := ((hleft.step (.add (.sphere 1))).step (.add (.sphere 2))).step
      (.create { children := [⟨5⟩, ⟨4⟩], compositions := [⟨.difference, [⟨4⟩, ⟨5⟩]⟩] })
    exact (hright.step (.transformOne ⟨3⟩ raise)).step (.transformOne ⟨6⟩ raise)
  have hshapes : Equivalence fun s t : { s // s ∈ a.shapes } => Shape.same s t = true :=
    equivalence_of_eq (by decide +kernel) (by decide +kernel)
  have hsteps : Equivalence fun s t : { s // s ∈ a.steps } => Transformation.isClose s t = true :=
    equivalence_of_eq (by decide +kernel) (by decide +kernel)
  have hequivalence := h.structurallyEqual_equivalence hshapes hsteps
  have hequal : a.structurallyEqual ⟨3⟩ ⟨6⟩ = true := by decide +kernel
  exact ⟨h, hequivalence, hequal, hequivalence.symm (x := ⟨⟨3⟩, rfl⟩) (y := ⟨⟨6⟩, rfl⟩) hequal⟩

end Reachable

end Assembly

end SolidModel
