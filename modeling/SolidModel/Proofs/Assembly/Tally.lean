import SolidModel.Proofs.Assembly.Comparison
import SolidModel.Proofs.Assembly.Resemblance

/-!
# Tallies

What an isolated copy loses is never made good elsewhere.

`Assembly.tallyWithin` counts the transformations that all parts of a component stand under, as
often as the parts are used. Components that are structurally equal have the same tally, whatever
way their parts pair off, and in a duplicate no part ever stands under more transformations than in
the source. So the tally of a duplicate is that of its source exactly if nothing is lost anywhere,
and a duplicate that has lost something is not equal to its source.

## Main definitions

* `Assembly.tallyWithin`: How many transformations the parts of a component stand under.

## Theorems

* `Assembly.tallyWithin_eq_of_equal`: Equal components have one tally.
* `Assembly.Duplicate.tally_le`: A duplicate has no greater tally, and the same only if nothing is
  lost.
-/

namespace SolidModel

open Relation

section Lists

variable {α β : Type}

/-- Lists whose elements weigh no more in order do not. -/
theorem sum_le_of_forall₂ {f : α → Nat} {g : β → Nat} {left : List α} {right : List β}
    (h : List.Forall₂ (fun x y => g y ≤ f x) left right) :
    (right.map g).sum ≤ (left.map f).sum := by
  induction h with
  | nil => exact Nat.le_refl _
  | cons hxy _ ih =>
      simp only [List.map_cons, List.sum_cons]
      omega

/-- If they weigh the same altogether, then in order. -/
theorem forall₂_eq_of_sum_eq {f : α → Nat} {g : β → Nat} {left : List α} {right : List β}
    (h : List.Forall₂ (fun x y => g y ≤ f x) left right)
    (hsum : (right.map g).sum = (left.map f).sum) :
    List.Forall₂ (fun x y => g y = f x) left right := by
  induction h with
  | nil => exact List.Forall₂.nil
  | cons hxy hrest ih =>
      have hle := sum_le_of_forall₂ hrest
      simp only [List.map_cons, List.sum_cons] at hsum
      exact List.Forall₂.cons (by omega) (ih (by omega))

end Lists

namespace Assembly

variable {a b : Assembly}

/-- How many transformations the parts of a component stand under, down to a depth. -/
def tallyWithin (a : Assembly) : Nat → ComponentId → Nat
  | 0, _ => 0
  | depth + 1, id =>
    match a.get? id with
    | none => 0
    | some c =>
      (a.history id).length + (c.children.map (a.tallyWithin depth)).sum
        + (c.compositions.map fun p => (p.operands.map (a.tallyWithin depth)).sum).sum

/-- Equal components have one tally, whatever way their parts pair off. A sum does not see the order
    of what is added, and that is what makes a tally good for comparisons that do not either. -/
theorem tallyWithin_eq_of_equal {depth : Nat} : ∀ {x y : ComponentId},
    a.structurallyEqualWithin depth x y = true → a.tallyWithin depth x = a.tallyWithin depth y := by
  induction depth with
  | zero => exact fun _ => rfl
  | succ depth ih =>
      intro x y h
      rw [structurallyEqualWithin_succ] at h
      split at h
      · next heq => rw [heq]
      · split at h
        · next left right hx hy =>
            rcases pairs_of_equalFrom h with ⟨_, hhistory, hpairs⟩
            have hlength := Transformation.length_eq_of_isCloseList hhistory
            rcases (hpairs.imp fun v _ w _ hvw => ih hvw).sum_eq with ⟨hchildren, hcompositions⟩
            simp only [tallyWithin, hx, hy]
            omega
        · exact absurd h Bool.false_ne_true

/-- A component whose parts have no greater tallies, and which stands under no more
    transformations, has no greater tally. If it has the same, so have all the parts. -/
theorem tallyWithin_mirrors {depth : Nat} {x y : ComponentId} {s c : Component}
    (hx : b.get? x = some s) (hy : b.get? y = some c)
    (hlength : (b.history y).length ≤ (b.history x).length)
    (hparts : Component.Mirrors (fun v w => b.tallyWithin depth w ≤ b.tallyWithin depth v)
      (fun v w => b.tallyWithin depth w ≤ b.tallyWithin depth v) s c) :
    b.tallyWithin (depth + 1) y ≤ b.tallyWithin (depth + 1) x ∧
      (b.tallyWithin (depth + 1) y = b.tallyWithin (depth + 1) x →
        (b.history y).length = (b.history x).length ∧
        Component.Mirrors (fun v w => b.tallyWithin depth w = b.tallyWithin depth v)
          (fun v w => b.tallyWithin depth w = b.tallyWithin depth v) s c) := by
  -- An operand that is a child weighs what it weighs as a child.
  have hoperands : List.Forall₂ (fun p q : Composition => List.Forall₂
      (fun v w => b.tallyWithin depth w ≤ b.tallyWithin depth v) p.operands q.operands)
      s.compositions c.compositions := by
    refine hparts.compositions.imp fun p q hpq => hpq.operands.imp fun v w hvw => ?_
    rcases hvw with hzip | ⟨_, hle⟩
    · exact List.forall₂_zip hparts.children hzip
    · exact hle
  have hsums := hoperands.imp fun p q hpq => sum_le_of_forall₂ hpq
  have hchildren := sum_le_of_forall₂ hparts.children
  have hcompositions := sum_le_of_forall₂ (f := fun p : Composition =>
      (p.operands.map (b.tallyWithin depth)).sum)
    (g := fun q : Composition => (q.operands.map (b.tallyWithin depth)).sum) hsums
  simp only [tallyWithin, hx, hy]
  refine ⟨by omega, fun heq => ⟨by omega, hparts.shape, hparts.color, hparts.direct, ?_, ?_⟩⟩
  · exact forall₂_eq_of_sum_eq hparts.children (by omega)
  · have hequal := forall₂_eq_of_sum_eq hsums (by omega)
    have hboth :=
      List.Forall₂.mp (fun p q hpq hsum => forall₂_eq_of_sum_eq hpq hsum) hoperands hequal
    refine List.Forall₂.mp (fun p q hpq htally => ⟨hpq.operator, ?_⟩) hparts.compositions hboth
    exact List.Forall₂.mp (fun v w hvw htally => hvw.imp_right fun h => ⟨h.1, htally⟩)
      hpq.operands htally

namespace Duplicate

variable {parent : Option ComponentId} {x y : ComponentId}

/-- A duplicate that stands under no more transformations has no greater tally. If it has the same,
    nothing is lost anywhere below. This is how a loss in some place below shows in a comparison of
    the two at the top, where a tally is the same for all that is equal. -/
theorem tally_le (ha : a.WellFormed) (hb : b.WellFormed) {depth : Nat} :
    ∀ {n : Nat} {parent : Option ComponentId} {x y : ComponentId}, depth ≤ n →
    a.Duplicate b depth parent x y → a.Kept b x →
    (b.history y).length ≤ (a.history x).length →
    b.tallyWithin n y ≤ b.tallyWithin n x ∧
      (b.tallyWithin n y = b.tallyWithin n x →
        (b.history y).length = (a.history x).length ∧ a.Intact x) := by
  induction depth with
  | zero => exact fun _ h => h.elim
  | succ depth ih =>
      intro n parent x y hn h hkept hlength
      rcases h with ⟨s, c, hs, hc, _, hparts⟩
      cases n with
      | zero => exact absurd hn (Nat.not_succ_le_zero depth)
      | succ n =>
          have hle := Nat.le_of_succ_le_succ hn
          have hsb : b.get? x = some s := by rw [hkept.get?_eq x ReflTransGen.refl, hs]
          have hhistory : b.history x = a.history x := hkept.history_eq x ReflTransGen.refl
          have hkeptPart : ∀ v ∈ s.uses, a.Kept b v := by
            intro v hv
            exact hkept.part (by rw [Uses, uses_of_get? hs]; exact hv)
          have htallies : Component.Mirrors
              (fun v w => b.tallyWithin n w ≤ b.tallyWithin n v ∧
                (b.tallyWithin n w = b.tallyWithin n v → a.Intact v))
              (fun v w => b.tallyWithin n w ≤ b.tallyWithin n v ∧
                (b.tallyWithin n w = b.tallyWithin n v → a.Unmoved v ∧ a.Intact v)) s c := by
            refine hparts.imp (fun v hv w _ hvw => ?_) fun v hv _ w _ hvw => ?_
            · have hmem : v ∈ a.children x := by rw [children_of_get? hs]; exact hv
              rcases hvw.2.history_child ha hb hmem with ⟨hw, hv'⟩
              have hshorter : (b.history w).length ≤ (a.history v).length := by
                rw [hw, hv', List.length_append, List.length_append]
                omega
              have hpart := ih hle hvw.2 (hkeptPart v (List.mem_append_left _ hv)) hshorter
              exact ⟨hpart.1, fun heq => (hpart.2 heq).2⟩
            · rcases hvw.2.history_foreign hb with ⟨hw, hv'⟩
              have hshorter : (b.history w).length ≤ (a.history v).length := by
                rw [hw, hv', List.length_append]
                omega
              have hpart := ih hle hvw.2 (hkeptPart v (List.mem_append_right _ hv)) hshorter
              refine ⟨hpart.1, fun heq => ⟨?_, (hpart.2 heq).2⟩⟩
              -- An isolated operand loses what its ancestors do, and it has lost nothing.
              have hsame := (hpart.2 heq).1
              rw [hw, hv', List.length_append] at hsame
              exact unmoved_iff.mpr (List.eq_nil_of_length_eq_zero (by omega))
          have hmirrors := tallyWithin_mirrors hsb hc (by rw [hhistory]; exact hlength)
            (htallies.imp (fun _ _ _ _ h => h.1) fun _ _ _ _ _ h => h.1)
          refine ⟨hmirrors.1, fun heq => ?_⟩
          rcases hmirrors.2 heq with ⟨hsame, hequal⟩
          have hall := htallies.and hequal
          refine ⟨by rw [hsame, hhistory],
            (intact_iff hs).mpr ⟨fun operand hoperand hnot => ?_, ?_⟩⟩
          · rcases hall.exists_of_mem_composed hoperand with ⟨w, _, hin | ⟨_, hforeign⟩⟩
            · exact absurd (List.of_mem_zip hin).1 hnot
            · exact (hforeign.1.2 hforeign.2).1
          · intro v hv
            rcases hall.exists_of_mem_uses_left hv with ⟨w, hchild | ⟨_, hforeign⟩⟩
            · exact hchild.1.2 hchild.2
            · exact (hforeign.1.2 hforeign.2).2

end Duplicate

end Assembly

end SolidModel
