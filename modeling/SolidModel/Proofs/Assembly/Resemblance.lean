import SolidModel.Proofs.Assembly.Alike
import SolidModel.Proofs.Assembly.Kept
import SolidModel.Proofs.Finite

/-!
# Resemblance

When a duplicate is as good as what it is a duplicate of.

A duplicate is built the same way as its source, so that the only question is where its parts
stand. A child of the copy moves with the copy as the child of the source moves with the source.
Other operands are different. The operand of the source may belong to somebody who is moved, and
the isolated copy of it belongs to nobody. It then stands under fewer transformations than the
operand it replaces. If that happens nowhere, all parts of the duplicate stand where those of the
source stand, and there is no difference between the two that a comparison or a body could show.

## Main definitions

* `Assembly.Unmoved`: Nothing above a component moves it.
* `Assembly.Intact`: An isolated copy loses nothing.
* `Assembly.Resembles`: Two components correspond all the way down, with a relation between their
  places.

## Theorems

* `Assembly.Duplicate.resembles`: A duplicate that has lost nothing stands where its source does,
  all the way down.
* `Assembly.Resembles.structurallyEqual`: Components that resemble each other in place are equal.
* `Assembly.Resembles.body_alike`: They have the same body.
-/

namespace SolidModel

open Relation

namespace Assembly

variable {a b : Assembly}

/-- None of the ancestors of a component has transformations. -/
def Unmoved (a : Assembly) (id : ComponentId) : Prop :=
  ∀ ancestor ∈ a.ancestors id, a.direct ancestor = []

/-- Nothing below a component has an operand that moves with anything but that. An operand that is a
    child of its user moves with it, and so is left out here, and one whose ancestors have no
    transformations moves with nobody. -/
def Intact (a : Assembly) (id : ComponentId) : Prop :=
  ∀ user c, a.Reaches id user → a.get? user = some c →
    ∀ operand ∈ c.composed, operand ∉ c.children → a.Unmoved operand

theorem unmoved_iff {id : ComponentId} :
    a.Unmoved id ↔ (a.ancestors id).flatMap a.direct = [] :=
  List.flatMap_eq_nil_iff.symm

theorem intact_iff {id : ComponentId} {s : Component} (hs : a.get? id = some s) :
    a.Intact id ↔ (∀ operand ∈ s.composed, operand ∉ s.children → a.Unmoved operand) ∧
      ∀ part ∈ s.uses, a.Intact part := by
  refine ⟨fun h => ⟨h id s ReflTransGen.refl hs, fun part hpart user c hreach => ?_⟩, ?_⟩
  · refine h user c (ReflTransGen.head ?_ hreach)
    rw [Uses, uses_of_get? hs]
    exact hpart
  · rintro ⟨hself, hparts⟩ user c hreach hc
    rcases ReflTransGen.cases_head hreach with rfl | ⟨part, huse, hreach⟩
    · rw [hs] at hc
      cases hc
      exact hself
    · rw [Uses, uses_of_get? hs] at huse
      exact hparts part huse user c hreach hc

/-- Two components correspond part by part, all the way down to a depth. Their places are related
    in one way, and so are those of their parts. -/
def Resembles (b : Assembly) (placed : ComponentId → ComponentId → Prop) :
    Nat → ComponentId → ComponentId → Prop
  | 0, _, _ => False
  | depth + 1, x, y =>
    placed x y ∧ ∃ s c, b.get? x = some s ∧ b.get? y = some c ∧
      Component.Mirrors (fun v w => b.Resembles placed depth v w)
        (fun v w => w ∉ c.children ∧ b.Resembles placed depth v w) s c

/-- Components whose parts are equal, and which stand in one place, are equal. -/
theorem structurallyEqualWithin_of_mirrors {depth : Nat} {x y : ComponentId} {s c : Component}
    (hx : b.get? x = some s) (hy : b.get? y = some c) (hfinite : s.Finite)
    (hsteps : ∀ step ∈ b.history x, step.Finite) (hplace : b.history y = b.history x)
    (hparts : Component.Mirrors (fun v w => b.structurallyEqualWithin depth v w = true)
      (fun v w => b.structurallyEqualWithin depth v w = true) s c) :
    b.structurallyEqualWithin (depth + 1) x y = true := by
  rw [structurallyEqualWithin_succ]
  split
  · exact contains_of_get? hx
  · have hshape := sameOption_self fun shape hs => Shape.same_self (hfinite.shape shape hs)
    have hcompositions := hparts.compositions.imp fun p q hpq => by
      have hoperands := pairsOff_of_forall₂ (hpq.operands.imp fun v w hvw =>
        hvw.elim (fun hzip => List.forall₂_zip hparts.children hzip) And.right)
      exact (Bool.and_eq_true _ _).mpr ⟨beq_iff_eq.mpr hpq.operator.symm, hoperands⟩
    simp only [hx, hy, equalFrom, hparts.shape, hshape, hplace,
      Transformation.isCloseList_self hsteps, pairsOff_of_forall₂ hparts.children,
      pairsOff_of_forall₂ hcompositions, Bool.and_self]

/-- All numbers that concern what is below a component are finite. -/
def FiniteBelow (b : Assembly) (x : ComponentId) : Prop :=
  ∀ d, b.Reaches x d → (∀ c, b.get? d = some c → c.Finite) ∧ ∀ step ∈ b.history d, step.Finite

/-- What is kept stays finite, whatever else has come. -/
theorem Kept.finiteBelow {x : ComponentId} (h : a.Kept b x) (hfinite : a.Finite) :
    b.FiniteBelow x := by
  intro d hreach
  have hd : a.Reaches x d := by
    induction hreach with
    | refl => exact ReflTransGen.refl
    | tail _ hstep ih =>
        rw [Uses, uses_congr (h.get?_eq _ ih)] at hstep
        exact ReflTransGen.tail ih hstep
  rw [h.get?_eq d hd, h.history_eq d hd]
  exact ⟨hfinite d, hfinite.history d⟩

/-- Components that resemble each other and stand in one place are equal. Numbers have to be finite,
    as one that is not does not equal itself. -/
theorem Resembles.structurallyEqual {depth : Nat} :
    ∀ {n : Nat} {x y : ComponentId}, depth ≤ n → b.FiniteBelow x →
    b.Resembles (fun v w => b.history w = b.history v) depth x y →
    b.structurallyEqualWithin n x y = true := by
  induction depth with
  | zero => exact fun _ _ h => h.elim
  | succ depth ih =>
      intro n x y hn hfinite h
      rcases h with ⟨hplace, s, c, hs, hc, hparts⟩
      cases n with
      | zero => exact absurd hn (Nat.not_succ_le_zero depth)
      | succ n =>
          have hle := Nat.le_of_succ_le_succ hn
          rcases hfinite x ReflTransGen.refl with ⟨hself, hsteps⟩
          -- Numbers have to be finite all the way down, or else nothing is equal to itself.
          have hpart : ∀ v ∈ s.uses, b.FiniteBelow v := by
            intro v hv d hd
            refine hfinite d (ReflTransGen.head ?_ hd)
            rw [Uses, uses_of_get? hs]
            exact hv
          refine structurallyEqualWithin_of_mirrors hs hc (hself s hs) hsteps hplace ?_
          refine hparts.imp (fun v hv w _ hvw => ?_) fun v hv _ w _ hvw => ?_
          · exact ih hle (hpart v (List.mem_append_left _ hv)) hvw
          · exact ih hle (hpart v (List.mem_append_right _ hv)) hvw.2

/-- Components that resemble each other have bodies that are alike, if shapes are that stand in
    related places. -/
theorem Resembles.body_alike {r : Body → Body → Prop} (hr : Body.Compatible r) (hb : b.WellFormed)
    {placed : ComponentId → ComponentId → Prop}
    (hplaced : ∀ x y, placed x y → ∀ shape : Shape,
      r (b.place x (.primitive shape.primitive)) (b.place y (.primitive shape.primitive)))
    {depth : Nat} : ∀ {n : Nat} {x y : ComponentId}, depth ≤ n → b.Resembles placed depth x y →
    Except.Alike r (b.bodyWithin n x) (b.bodyWithin n y) := by
  induction depth with
  | zero => exact fun _ h => h.elim
  | succ depth ih =>
      intro n x y hn h
      rcases h with ⟨hplace, s, c, hs, hc, hparts⟩
      cases n with
      | zero => exact absurd hn (Nat.not_succ_le_zero depth)
      | succ n =>
          have hle := Nat.le_of_succ_le_succ hn
          have hnodup : s.children.Nodup ∧ c.children.Nodup := by
            rw [← children_of_get? hs, ← children_of_get? hc]
            exact ⟨hb.nodup_children x, hb.nodup_children y⟩
          rw [bodyWithin_succ, bodyWithin_succ, find_eq_ok_iff.mpr hs, find_eq_ok_iff.mpr hc]
          -- The induction takes the parts that correspond to bodies that are alike.
          have halike : Component.Mirrors
              (fun v w => Except.Alike r (b.bodyWithin n v) (b.bodyWithin n w))
              (fun v w => w ∉ c.children ∧ Except.Alike r (b.bodyWithin n v) (b.bodyWithin n w))
              s c :=
            hparts.imp (fun v _ w _ hvw => ih hle hvw) fun v _ _ w _ hvw => hvw.imp_right (ih hle)
          exact bodyFrom_alike hr (hplaced x y hplace) hnodup.1 hnodup.2 (fun _ _ h => h) halike

namespace Duplicate

variable {parent : Option ComponentId} {x y : ComponentId}

theorem direct_eq {depth : Nat} (h : a.Duplicate b depth parent x y) : b.direct y = a.direct x := by
  cases depth with
  | zero => exact h.elim
  | succ depth =>
      rcases h with ⟨s, c, hs, hc, _, hparts⟩
      simp only [direct, hs, hc, hparts.direct]

/-- A duplicate stands where its parent does, under transformations of its own. -/
theorem history_eq {depth : Nat} (h : a.Duplicate b depth parent x y) (hb : b.WellFormed) :
    b.history y = a.direct x ++ parent.elim [] b.history := by
  rw [hb.history_eq, h.direct_eq, h.parent?_copy]

/-- A part that moves with its owner does so in a duplicate as well. -/
theorem history_child {depth : Nat} (ha : a.WellFormed) (hb : b.WellFormed) {v w : ComponentId}
    (h : a.Duplicate b depth (some y) v w) (hv : v ∈ a.children x) :
    b.history w = a.direct v ++ b.history y ∧ a.history v = a.direct v ++ a.history x := by
  have hparent := (ha.mem_children_iff x v).mp hv
  exact ⟨h.history_eq hb, by rw [ha.history_eq, hparent, Option.elim_some]⟩

/-- Any other part stands in a duplicate where its own transformations put it. -/
theorem history_foreign {depth : Nat} (hb : b.WellFormed) {v w : ComponentId}
    (h : a.Duplicate b depth none v w) :
    b.history w = a.direct v ∧ a.history v = a.direct v ++ (a.ancestors v).flatMap a.direct := by
  refine ⟨?_, by rw [history, List.flatMap_cons]⟩
  rw [h.history_eq hb, Option.elim_none, List.append_nil]

/-- A duplicate that stands where its source stands, and that has lost nothing, resembles it. Below
    the two the same is true of every child, since children move with their parents, and of the
    operands that are no children because nothing is lost. -/
theorem resembles (ha : a.WellFormed) (hb : b.WellFormed) {depth : Nat} :
    ∀ {parent : Option ComponentId} {x y : ComponentId}, a.Duplicate b depth parent x y →
    a.Kept b x → b.history y = a.history x → a.Intact x →
    b.Resembles (fun v w => b.history w = b.history v) depth x y := by
  induction depth with
  | zero => exact fun h => h.elim
  | succ depth ih =>
      intro parent x y h hkept hplace hintact
      rcases h with ⟨s, c, hs, hc, _, hparts⟩
      have hsb : b.get? x = some s := by rw [hkept.get?_eq x ReflTransGen.refl, hs]
      have hkeptPart : ∀ v ∈ s.uses, a.Kept b v := by
        intro v hv
        exact hkept.part (by rw [Uses, uses_of_get? hs]; exact hv)
      rcases (intact_iff hs).mp hintact with ⟨hfree, hintact⟩
      refine ⟨hplace.trans (hkept.history_eq x ReflTransGen.refl).symm, s, c, hsb, hc, ?_⟩
      refine hparts.imp (fun v hv w _ hvw => ?_) fun v hv hnot w _ hvw => ?_
      · have hmem : v ∈ a.children x := by rw [children_of_get? hs]; exact hv
        have huse := List.mem_append_left s.composed hv
        rcases hvw.2.history_child ha hb hmem with ⟨hw, hv'⟩
        exact ih hvw.2 (hkeptPart v huse) (by rw [hw, hv', hplace]) (hintact v huse)
      · have huse := List.mem_append_right s.children hv
        rcases hvw.2.history_foreign hb with ⟨hw, hv'⟩
        rw [unmoved_iff.mp (hfree v hv hnot), List.append_nil] at hv'
        refine ⟨fun hchild => ?_, ih hvw.2 (hkeptPart v huse) (by rw [hw, hv']) (hintact v huse)⟩
        -- An isolated operand has no parent, and a child of the copy has the copy.
        rw [← children_of_get? hc, hb.mem_children_iff, hvw.2.parent?_copy] at hchild
        exact absurd hchild (by simp only [reduceCtorEq, not_false_eq_true])

end Duplicate

end Assembly

end SolidModel
