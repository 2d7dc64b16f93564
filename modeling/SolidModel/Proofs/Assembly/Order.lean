import SolidModel.Proofs.Assembly.Comparison
import SolidModel.Proofs.Assembly.Kept
import SolidModel.Proofs.Finite

/-!
# The Order of Children

Whether the order of children makes a difference to a comparison.

It is not meant to. Children count without an order, and two components are compared by pairs of
children. But the pairs are looked for in the order in which the children come, and the first equal
that is left is taken for good. What is taken may be missing in the end. Then there are pairs, and
the comparison does not find them, and it would have found them if the children had come in another
order.

Numbers are to blame for this. They are equal up to a tolerance, so that two numbers that have an
equal in common need not be equal. As long as children that have an equal in common have all their
equals in common, all is as it is meant to be: a comparison succeeds if there are pairs, and another
order of the children makes no difference. If they have not, and there are pairs, some order fails.

That the order of the children of one component changes nothing else has a reason of its own. What
is below the component is what it was, and so is everything that does not get to it. Only where it
is below the component that it is compared with, the comparison could meet it once more. But those
two are not equal in any order, since walks down from equal components end together.

## Main definitions

* `Assembly.Reordered`: Two assemblies differ in the order of the children of one component.

## Theorems

* `Assembly.WellFormed.endsWithin_iff_of_structurallyEqual`: Walks down from equal components.
* `Assembly.WellFormed.structurallyEqual_of_transGen`: No component equals a part of it.
* `Assembly.Reordered.structurallyEqual_eq`: Another order of the children makes no difference if
  they share their equals.
* `Assembly.Reachable.children_pairOff`: What pairs have to do with a comparison of children.
* `Assembly.Reachable.children_misjudged`: The order of children makes a difference.
-/

namespace SolidModel

open Relation

namespace Assembly

variable {a b : Assembly} {x y : ComponentId} {left right : Component}

namespace WellFormed

/-- Walks down from equal components end together. Equal components have their parts in pairs of
    equals, so that a step down on one side can be taken on the other side as well. -/
theorem endsWithin_iff_of_structurallyEqual (h : a.WellFormed)
    (hequal : a.structurallyEqual x y = true) :
    ∀ depth, EndsWithin a.uses depth x ↔ EndsWithin a.uses depth y := by
  refine h.structurallyEqual_induction
    (motive := fun x y => ∀ depth, EndsWithin a.uses depth x ↔ EndsWithin a.uses depth y)
    (fun _ _ => Iff.rfl) ?_ hequal
  intro x y left right hx hy _ hfrom ih depth
  cases depth with
  | zero => exact Iff.rfl
  | succ depth =>
      -- Equal components have equal parts, and each walk down goes through one of them.
      have hpairs := (pairs_of_equalFrom hfrom).2.2
      simp only [EndsWithin, uses_of_get? hx, uses_of_get? hy]
      constructor
      · intro hends w hw
        rcases hpairs.flip.exists_of_mem_uses hw with ⟨v, hv, hvw⟩
        exact (ih v hv w hvw depth).mp (hends v hv)
      · intro hends v hv
        rcases hpairs.exists_of_mem_uses hv with ⟨w, hw, hvw⟩
        exact (ih v hv w hvw depth).mpr (hends w hw)

/-- No component equals a part of it. Walks down from the two would end together, and the one passes
    through the other on its way. -/
theorem structurallyEqual_of_transGen (h : a.WellFormed) (hbelow : TransGen a.Uses x y) :
    a.structurallyEqual x y = false := by
  rw [Bool.eq_false_iff]
  intro hequal
  exact EndsWithin.not_transGen (h.endsWithin_iff_of_structurallyEqual hequal) (h.usesEnd x) hbelow

end WellFormed

/-- The second assembly is the first one with the children of one component in another order. -/
structure Reordered (a b : Assembly) (id : ComponentId) : Prop where
  /-- All other components are the same. -/
  others : ∀ other, other ≠ id → b.get? other = a.get? other
  /-- The one component has the same children in another order, and is otherwise the same. -/
  same : ∃ c children, a.get? id = some c ∧ b.get? id = some { c with children } ∧
    children.Perm c.children

namespace Reordered

variable {id : ComponentId}

/-- The last component may be given its children in another order. -/
theorem insert (parts : Assembly) (c : Component) {children : List ComponentId}
    (h : children.Perm c.children) :
    (parts.insert c).Reordered (parts.insert { c with children }) parts.nextId where
  others other hother := by rw [get?_insert, get?_insert, if_neg hother, if_neg hother]
  same := ⟨c, children, get?_insert_nextId parts c, get?_insert_nextId parts _, h⟩

/-- Components are made of what they were made of. -/
theorem uses_iff (h : a.Reordered b id) (z other : ComponentId) :
    b.Uses z other ↔ a.Uses z other := by
  by_cases hz : z = id
  · rcases h.same with ⟨c, children, ha, hb, hperm⟩
    rw [hz, Uses, Uses, uses_of_get? ha, uses_of_get? hb]
    exact (List.Perm.append_right c.composed hperm).mem_iff
  · rw [Uses, Uses, uses_congr (h.others z hz)]

/-- Everything stands where it stood. -/
theorem history_eq (h : a.Reordered b id) (ha : a.WellFormed) (hb : b.WellFormed)
    {z : ComponentId} (hz : a.contains z = true) : b.history z = a.history z := by
  refine ha.history_eq_of_same hb (fun other _ => ?_) hz
  by_cases hother : other = id
  · rcases h.same with ⟨c, children, hc, hc', _⟩
    rw [hother, parent?_of_get? hc, parent?_of_get? hc']
    simp only [direct, hc, hc', and_self]
  · have hget := h.others other hother
    exact ⟨parent?_congr hget, by rw [direct, direct, hget]⟩

/-- Whoever does not get to the component is kept. -/
theorem kept (h : a.Reordered b id) (ha : a.WellFormed) (hb : b.WellFormed) {z : ComponentId}
    (hz : a.contains z = true) (hnot : ¬ a.Reaches z id) : a.Kept b z where
  get?_eq _ hd := h.others _ fun heq => hnot (heq ▸ hd)
  history_eq _ hd := h.history_eq ha hb (ha.contains_of_reaches hz hd)

/-- What a component is made of compares as it did with what the reordered one is made of, unless
    the component gets to the reordered one: that one does not get to itself. -/
theorem structurallyEqual_parts (h : a.Reordered b y) (ha : a.WellFormed) (hb : b.WellFormed)
    (hnot : ¬ a.Reaches x y) {v w : ComponentId} (hxv : a.Uses x v) (hyw : a.Uses y w) :
    b.structurallyEqual v w = a.structurallyEqual v w := by
  have hv := h.kept ha hb (ha.contains_of_uses x v hxv) fun hvy =>
    hnot (ReflTransGen.head hxv hvy)
  have hw := h.kept ha hb (ha.contains_of_uses y w hyw) fun hwy =>
    ha.acyclic y (TransGen.head' hyw hwy)
  exact hv.structurallyEqual_eq hw ha hb

/-- Another order of the children of the right component makes no difference to a comparison if
    children that have an equal in common have all of them in common. Nothing below has changed, so
    that the children compare as they did. The two components themselves are the only ones to which
    the order could matter. -/
theorem structurallyEqual_eq (h : a.Reordered b y) (ha : a.WellFormed) (hb : b.WellFormed)
    (hne : x ≠ y) (hx : a.get? x = some left) (hy : a.get? y = some right)
    (hshares : SharesEquals a.structurallyEqual left.children right.children) :
    b.structurallyEqual x y = a.structurallyEqual x y := by
  by_cases hreach : a.Reaches x y
  · -- What is below the left component does not equal it in any order.
    have hbelow : TransGen a.Uses x y :=
      (reflTransGen_iff_eq_or_transGen.mp hreach).resolve_left fun heq => hne heq.symm
    rw [ha.structurallyEqual_of_transGen hbelow]
    exact hb.structurallyEqual_of_transGen
      (TransGen.mono (fun z other => (h.uses_iff z other).mpr) _ _ hbelow)
  -- Nothing below the left component has changed, and in the right one only an order has.
  · rcases h.same with ⟨c, children, hc, hy', hperm⟩
    cases hy.symm.trans hc
    have hx' : b.get? x = some left := (h.others x hne).trans hx
    rw [ha.structurallyEqual_eq hne hx hy, hb.structurallyEqual_eq hne hx' hy']
    have hparts : ∀ v ∈ left.uses, ∀ w ∈ ({ right with children } : Component).uses,
        b.structurallyEqual v w = a.structurallyEqual v w := by
      intro v hv w hw
      refine h.structurallyEqual_parts ha hb hreach ?_ ((h.uses_iff y w).mp ?_)
      · rwa [Uses, uses_of_get? hx]
      · rwa [Uses, uses_of_get? hy']
    rw [equalFrom_congr hparts]
    unfold equalFrom
    rw [h.history_eq ha hb (contains_of_get? hx), h.history_eq ha hb (contains_of_get? hy)]
    simp only [hshares.pairsOff_of_perm (List.Perm.refl left.children) hperm]

end Reordered

namespace Reachable

/-- What pairs have to do with a comparison of the children of two different components.

    The first part is only the comparison spelled out for two components that are there. If the
    comparison of their children succeeds, there are as many on both sides and they are in pairs of
    equals. It succeeds in all orders of the children exactly if there are such pairs and children
    that have an equal in common have all their equals in common. In that case the comparison as it
    stands succeeds exactly if there are pairs, and the order of children makes no difference to the
    components: in an assembly where one of them has its children in another order, the verdict is
    the same. -/
theorem children_pairOff (h : a.Reachable) (hne : x ≠ y) (hx : a.get? x = some left)
    (hy : a.get? y = some right) :
    a.structurallyEqual x y = a.equalFrom a.structurallyEqual x y left right ∧
      (pairsOff a.structurallyEqual left.children right.children = true →
        left.children.length = right.children.length ∧
        Multiset.Rel (fun v w => a.structurallyEqual v w = true)
          (left.children : Multiset ComponentId) right.children) ∧
      ((∀ vs ws, vs.Perm left.children → ws.Perm right.children →
          pairsOff a.structurallyEqual vs ws = true) ↔
        Multiset.Rel (fun v w => a.structurallyEqual v w = true)
          (left.children : Multiset ComponentId) right.children ∧
        SharesEquals a.structurallyEqual left.children right.children) ∧
      (SharesEquals a.structurallyEqual left.children right.children →
        (pairsOff a.structurallyEqual left.children right.children = true ↔
          left.children.length = right.children.length ∧
          Multiset.Rel (fun v w => a.structurallyEqual v w = true)
            (left.children : Multiset ComponentId) right.children) ∧
        ∀ b, b.Reachable → a.Reordered b y →
          b.structurallyEqual x y = a.structurallyEqual x y) := by
  have hlength : Multiset.Rel (fun v w => a.structurallyEqual v w = true)
      (left.children : Multiset ComponentId) right.children →
      left.children.length = right.children.length := fun hrel => Multiset.card_eq_card_of_rel hrel
  refine ⟨h.wellFormed.structurallyEqual_eq hne hx hy, fun hpairs => ?_, pairsOff_of_orders_iff,
    fun hshares => ⟨?_, fun b hb hreordered => ?_⟩⟩
  · have hrel := rel_of_pairsOff hpairs
    exact ⟨hlength hrel, hrel⟩
  · rw [hshares.pairsOff_iff]
    exact ⟨fun hrel => ⟨hlength hrel, hrel⟩, And.right⟩
  · exact hreordered.structurallyEqual_eq h.wellFormed hb.wellFormed hne hx hy hshares

/-- Two pairs of spheres, the second one given in both orders. -/
theorem children_pairOff_swapped :
    let parts : Assembly := ⟨#[
      { parent := some ⟨5⟩, shape := some (.sphere 1) },
      { parent := some ⟨5⟩, shape := some (.sphere 2) },
      { parent := some ⟨6⟩, shape := some (.sphere 1) },
      { parent := some ⟨6⟩, shape := some (.sphere 2) },
      { children := [⟨1⟩, ⟨2⟩] }]⟩
    let a := parts.insert { children := [⟨3⟩, ⟨4⟩] }
    let b := parts.insert { children := [⟨4⟩, ⟨3⟩] }
    a.Reachable ∧ b.Reachable ∧ a.Reordered b ⟨6⟩ ∧ (⟨5⟩ : ComponentId) ≠ ⟨6⟩ ∧
      a.get? ⟨5⟩ = some { children := [⟨1⟩, ⟨2⟩] } ∧ a.get? ⟨6⟩ = some { children := [⟨3⟩, ⟨4⟩] } ∧
      SharesEquals a.structurallyEqual [⟨1⟩, ⟨2⟩] [⟨3⟩, ⟨4⟩] ∧
      a.structurallyEqual ⟨5⟩ ⟨6⟩ = true ∧
      b.structurallyEqual ⟨5⟩ ⟨6⟩ = a.structurallyEqual ⟨5⟩ ⟨6⟩ := by
  intro parts a b
  have hspheres : Reachable ⟨#[
      { parent := some ⟨5⟩, shape := some (.sphere 1) },
      { parent := some ⟨5⟩, shape := some (.sphere 2) },
      { shape := some (.sphere 1) }, { shape := some (.sphere 2) },
      { children := [⟨1⟩, ⟨2⟩] }]⟩ :=
    ((((Reachable.empty.step (.add (.sphere 1))).step (.add (.sphere 2))).step
      (.add (.sphere 1))).step (.add (.sphere 2))).step (.create { children := [⟨1⟩, ⟨2⟩] })
  have ha : a.Reachable := hspheres.step (.create { children := [⟨3⟩, ⟨4⟩] })
  have hb : b.Reachable := hspheres.step (.create { children := [⟨4⟩, ⟨3⟩] })
  have hreordered : a.Reordered b ⟨6⟩ :=
    Reordered.insert parts { children := [⟨3⟩, ⟨4⟩] } (List.Perm.swap _ _ _)
  have hne : (⟨5⟩ : ComponentId) ≠ ⟨6⟩ := by decide
  have hshares : SharesEquals a.structurallyEqual [⟨1⟩, ⟨2⟩] [⟨3⟩, ⟨4⟩] := by decide +kernel
  have hequal : a.structurallyEqual ⟨5⟩ ⟨6⟩ = true := by decide +kernel
  exact ⟨ha, hb, hreordered, hne, rfl, rfl, hshares, hequal,
    ((ha.children_pairOff hne rfl rfl).2.2.2 hshares).2 b hb hreordered⟩

/-- Four spheres at heights of which the middle ones are equal and the outer ones are not. There are
    pairs, and a comparison does not find them; in another order it does. -/
theorem children_misjudged :
    let ball (parent : ComponentId) (height : Float) : Component :=
      { parent := some parent, shape := some (.sphere 1), direct := [.translate ⟨0, 0, height⟩] }
    let parts : Assembly := ⟨#[ball ⟨5⟩ 1.000008, ball ⟨5⟩ 1, ball ⟨6⟩ 1, ball ⟨6⟩ 1.000016,
      { children := [⟨1⟩, ⟨2⟩] }]⟩
    let a := parts.insert { children := [⟨3⟩, ⟨4⟩] }
    let b := parts.insert { children := [⟨4⟩, ⟨3⟩] }
    a.Reachable ∧ b.Reachable ∧ a.Finite ∧ a.Reordered b ⟨6⟩ ∧
      ¬ (pairsOff a.structurallyEqual [⟨1⟩, ⟨2⟩] [⟨3⟩, ⟨4⟩] = true ↔
        [(⟨1⟩ : ComponentId), ⟨2⟩].length = [(⟨3⟩ : ComponentId), ⟨4⟩].length ∧
        Multiset.Rel (fun v w => a.structurallyEqual v w = true)
          ([⟨1⟩, ⟨2⟩] : List ComponentId) ([⟨3⟩, ⟨4⟩] : List ComponentId)) ∧
      a.structurallyEqual ⟨5⟩ ⟨6⟩ = false ∧ b.structurallyEqual ⟨5⟩ ⟨6⟩ = true := by
  intro ball parts a b
  have hspheres : Reachable ⟨#[ball ⟨5⟩ 1.000008, ball ⟨5⟩ 1,
      { ball ⟨6⟩ 1 with parent := none }, { ball ⟨6⟩ 1.000016 with parent := none },
      { children := [⟨1⟩, ⟨2⟩] }]⟩ := by
    have hballs := (((Reachable.empty.step (.add (.sphere 1))).step (.add (.sphere 1))).step
      (.add (.sphere 1))).step (.add (.sphere 1))
    have hraised := (((hballs.step (.transform ⟨1⟩ [.translate ⟨0, 0, 1.000008⟩])).step
      (.transform ⟨2⟩ [.translate ⟨0, 0, 1⟩])).step (.transform ⟨3⟩ [.translate ⟨0, 0, 1⟩])).step
      (.transform ⟨4⟩ [.translate ⟨0, 0, 1.000016⟩])
    exact hraised.step (.create { children := [⟨1⟩, ⟨2⟩] })
  have hpairs : pairsOff a.structurallyEqual [⟨1⟩, ⟨2⟩] [⟨3⟩, ⟨4⟩] = false := by decide +kernel
  have hswapped : pairsOff a.structurallyEqual [⟨1⟩, ⟨2⟩] [⟨4⟩, ⟨3⟩] = true := by decide +kernel
  have hrel : Multiset.Rel (fun v w => a.structurallyEqual v w = true)
      ([⟨1⟩, ⟨2⟩] : List ComponentId) ([⟨3⟩, ⟨4⟩] : List ComponentId) := by
    have hswap : (([⟨3⟩, ⟨4⟩] : List ComponentId) : Multiset ComponentId) =
        ([⟨4⟩, ⟨3⟩] : List ComponentId) := Multiset.coe_eq_coe.mpr (List.Perm.swap _ _ _)
    rw [hswap]
    exact rel_of_pairsOff hswapped
  refine ⟨hspheres.step (.create { children := [⟨3⟩, ⟨4⟩] }),
    hspheres.step (.create { children := [⟨4⟩, ⟨3⟩] }), finite_of_components (by decide +kernel),
    Reordered.insert parts { children := [⟨3⟩, ⟨4⟩] } (List.Perm.swap _ _ _), ?_,
    by decide +kernel, by decide +kernel⟩
  rw [hpairs]
  exact fun hclaim => Bool.false_ne_true (hclaim.mpr ⟨rfl, hrel⟩)

end Reachable

end Assembly

end SolidModel
