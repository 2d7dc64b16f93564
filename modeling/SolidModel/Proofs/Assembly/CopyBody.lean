import SolidModel.Proofs.Assembly.CopyPlacement

/-!
# Bodies of Copies

What a copy shows, wherever it stands.

A copy need not stand where its source stands. An isolated copy has no parent to move with, and the
parts of a plain copy may be left behind. So the body of a copy may have fewer wrappers around its
primitives than the body of the source has, or none.

That is all there is to it. Which children are left to be united, what a body starts from, and what
each composition wraps up depend on how the links of a component hang together, and in a copy they
hang together as in the source. Without the wrappers there is one tree, and the copy has a body if
its source has one.

## Main definitions

* `Body.unplaced`: A body without its wrappers.
* `Body.SameTree`: Two bodies are one without their wrappers.

## Theorems

* `Body.SameTree.compatible`: So they are within compositions and colors.
* `Assembly.Extends.kept_below`: Growth keeps what it does not change.
* `Assembly.Duplicate.body_sameTree`: The body of a duplicate.
* `Assembly.PlainCopy.body_sameTree`: The body of a plain copy.
* `Assembly.Reachable.copy_unplaced`: Both of them in every reachable assembly.
-/

namespace SolidModel

open Relation

/-- Outcomes are alike if both or none of them are results, and results are related. -/
theorem Except.alike_iff {ε ε' α β : Type} {r : α → β → Prop} {u : Except ε α} {v : Except ε' β} :
    Except.Alike r u v ↔ ((∃ y, v = .ok y) ↔ ∃ x, u = .ok x) ∧
      ∀ x y, u = .ok x → v = .ok y → r x y := by
  cases u <;> cases v <;> simp [Except.Alike]

namespace Body

mutual

/-- A body without its wrappers: what is moved takes the place of the wrapper. Primitives,
    operators, operands and colors are left where they are. -/
def unplaced : Body → Body
  | .primitive solid => .primitive solid
  | .composition operator operands => .composition operator (unplacedAll operands)
  | .moved _ child => unplaced child
  | .colored color child => .colored color (unplaced child)

/-- Several bodies without their wrappers. -/
def unplacedAll : List Body → List Body
  | [] => []
  | body :: rest => unplaced body :: unplacedAll rest

end

theorem unplacedAll_eq (bodies : List Body) : unplacedAll bodies = bodies.map unplaced := by
  induction bodies with
  | nil => rfl
  | cons body rest ih => rw [unplacedAll, ih, List.map_cons]

/-- Nothing is left of transformations around a body. -/
theorem unplaced_wrap (body : Body) (steps : List Transformation) :
    (body.wrap steps).unplaced = body.unplaced := by
  induction steps generalizing body with
  | nil => rfl
  | cons step rest ih =>
      rw [wrap, List.foldl_cons]
      exact ih (.moved step body)

/-- Two bodies are one without their wrappers. -/
def SameTree (body copied : Body) : Prop := copied.unplaced = body.unplaced

namespace SameTree

theorem wrap (body : Body) (steps steps' : List Transformation) :
    SameTree (body.wrap steps) (body.wrap steps') := by
  rw [SameTree, unplaced_wrap, unplaced_wrap]

theorem compatible : Compatible SameTree where
  composition operator operands operands' h := by
    have hall : operands'.map unplaced = operands.map unplaced := by
      rw [← List.forall₂_eq_eq_eq, List.forall₂_map_left_iff, List.forall₂_map_right_iff]
      exact h.flip
    rw [SameTree, unplaced, unplaced, unplacedAll_eq, unplacedAll_eq, hall]
  colored color child child' h := by
    rw [SameTree] at h
    rw [SameTree, unplaced, unplaced, h]

end SameTree

end Body

namespace Assembly

variable {a b : Assembly} {id : ComponentId}

/-- Growth that changes nothing keeps whatever was there. -/
theorem Extends.kept_below (h : a.Extends b none) (ha : a.WellFormed) (hb : b.WellFormed)
    (hid : a.contains id = true) : a.Kept b id := by
  have hkept : ∀ z, a.contains z = true → b.get? z = a.get? z := fun z hz =>
    h.kept z hz (by simp only [ne_eq, reduceCtorEq, not_false_eq_true])
  refine ⟨fun d hd => hkept d (ha.contains_of_reaches hid hd), fun d hd => ?_⟩
  refine ha.history_eq_of_same hb (fun z hz => ⟨parent?_congr (hkept z hz), ?_⟩)
    (ha.contains_of_reaches hid hd)
  rw [direct, direct, hkept z hz]

/-- Components whose parts have one tree as bodies have one themselves. Children correspond to
    children. An operand that is no child of the source must not have become a child of the copy,
    for it would be missing among the uncomposed children there. -/
theorem WellFormed.body_sameTree (ha : a.WellFormed) (hb : b.WellFormed) {x y : ComponentId}
    {s c : Component} (hs : a.get? x = some s) (hc : b.get? y = some c)
    (hparts : Component.Mirrors
      (fun v w => Except.Alike Body.SameTree (a.body v) (b.body w))
      (fun v w => w ∉ c.children ∧ Except.Alike Body.SameTree (a.body v) (b.body w)) s c) :
    Except.Alike Body.SameTree (a.body x) (b.body y) := by
  have hnodup : s.children.Nodup ∧ c.children.Nodup := by
    rw [← children_of_get? hs, ← children_of_get? hc]
    exact ⟨ha.nodup_children x, hb.nodup_children y⟩
  rw [ha.body_eq, hb.body_eq, find_eq_ok_iff.mpr hs, find_eq_ok_iff.mpr hc]
  exact bodyFrom_alike Body.SameTree.compatible (fun shape => Body.SameTree.wrap _ _ _) hnodup.1
    hnodup.2 (fun _ _ hw => hw) hparts

-- The induction is on the depth of the duplicate. Parents differ from level to level, since the
-- copies of children join their parent and those of operands have none.
/-- A duplicate shows what its source shows. -/
theorem Duplicate.body_sameTree (ha : a.WellFormed) (hb : b.WellFormed) {depth : Nat} :
    ∀ {parent : Option ComponentId} {x y : ComponentId}, a.Duplicate b depth parent x y →
    Except.Alike Body.SameTree (a.body x) (b.body y) := by
  induction depth with
  | zero => exact fun h => h.elim
  | succ depth ih =>
      rintro parent x y ⟨s, c, hs, hc, _, hparts⟩
      refine ha.body_sameTree hb hs hc (hparts.imp (fun _ _ _ _ hvw => ih hvw.2) ?_)
      refine fun v _ _ w _ hvw => ⟨fun hchild => ?_, ih hvw.2⟩
      -- An isolated operand has no parent, and a child of the copy has the copy.
      rw [← children_of_get? hc, hb.mem_children_iff, hvw.2.parent?_copy] at hchild
      exact absurd hchild (by simp only [reduceCtorEq, not_false_eq_true])

/-- A plain copy shows what its source shows. -/
theorem PlainCopy.body_sameTree {s c : Component} (h : a.PlainCopy b id s c) :
    Except.Alike Body.SameTree (a.body id) (b.body a.nextId) := by
  refine h.before.body_sameTree h.after h.source h.copy (h.mirrors.imp ?_ ?_)
  · exact fun _ _ _ _ hvw => hvw.2.body_sameTree h.before h.after
  · intro v hv _ w _ hvw
    have hkept := h.kept_part (List.mem_append_right s.children hv)
    rw [hvw, hkept.body_eq h.before h.size_le]
    refine ⟨h.not_mem_children hv, (Except.Alike.refl_eq (a.body v)).imp ?_⟩
    rintro body _ rfl
    exact rfl

namespace Reachable

/-- Whatever a reachable assembly contains can be copied, plainly or in isolation, and the copy has
    an id that is new. The source has the body it had. The copy has a body exactly if the source has
    one, and without the transformations in them the two bodies are one: the same primitives under
    the same operators, in the same order and the same colors. Where the parts of a copy stand is
    another matter, as an isolated copy has no parent to move with. -/
theorem copy_unplaced (h : a.Reachable) (hid : a.contains id = true) (isolated : Bool) :
    ∃ b, (Edit.copy id isolated).Yields a a.nextId b ∧ ¬ a.contains a.nextId = true ∧
      b.body id = a.body id ∧
      ((∃ copied, b.body a.nextId = .ok copied) ↔ ∃ body, a.body id = .ok body) ∧
      ∀ body copied, a.body id = .ok body → b.body a.nextId = .ok copied →
        copied.unplaced = body.unplaced := by
  have hwf := h.wellFormed
  have hnew := WellFormed.not_contains_nextId a
  cases isolated with
  | true =>
      rcases Edit.copy_isolated_yields hwf hwf (Extends.refl a none) hid with
        ⟨b, hyields, hb, hgrown, hdup⟩
      have hkept := hgrown.kept_below hwf hb hid
      exact ⟨b, hyields, hnew, hkept.body_eq hwf (size_le_of_contains hgrown.contains),
        Except.alike_iff.mp (hdup.body_sameTree hwf hb)⟩
  | false =>
      rcases exists_plainCopy hwf hid with ⟨b, s, c, hyields, hcopy⟩
      exact ⟨b, hyields, hnew, hcopy.kept.body_eq hwf hcopy.size_le,
        Except.alike_iff.mp hcopy.body_sameTree⟩

/-- A part of the copy is left behind, and it is in its place in the tree all the same. -/
theorem copy_unplaced_left_behind :
    let ball := Body.primitive (Shape.sphere 1).primitive
    let raised := Body.moved (.translate ⟨0, 0, 1⟩) ball
    let a : Assembly := ⟨#[
      { parent := some ⟨3⟩, shape := some (.sphere 1) },
      { parent := some ⟨3⟩, compositions := [⟨.union, [⟨1⟩]⟩] },
      { children := [⟨1⟩, ⟨2⟩], direct := [.translate ⟨0, 0, 1⟩] }]⟩
    a.Reachable ∧ a.contains ⟨3⟩ = true ∧ ∃ b copied, (Edit.copy ⟨3⟩ false).Yields a ⟨4⟩ b ∧
      b.body ⟨3⟩ = a.body ⟨3⟩ ∧
      a.body ⟨3⟩ = .ok (.composition .union [raised, .composition .union [raised]]) ∧
      b.body ⟨4⟩ = .ok copied ∧
      copied.unplaced = .composition .union [ball, .composition .union [ball]] := by
  intro ball raised a
  have h : a.Reachable := by
    have hparts : Reachable
        ⟨#[{ shape := some (.sphere 1) }, { compositions := [⟨.union, [⟨1⟩]⟩] }]⟩ :=
      (Reachable.empty.step (.add (.sphere 1))).step (.create { compositions := [⟨.union, [⟨1⟩]⟩] })
    have hwhole : Reachable ⟨#[
        { parent := some ⟨3⟩, shape := some (.sphere 1) },
        { parent := some ⟨3⟩, compositions := [⟨.union, [⟨1⟩]⟩] },
        { children := [⟨1⟩, ⟨2⟩] }]⟩ :=
      hparts.step (.create { children := [⟨1⟩, ⟨2⟩] })
    exact hwhole.step (.transform ⟨3⟩ [.translate ⟨0, 0, 1⟩])
  have hbody : a.body ⟨3⟩ = .ok (.composition .union [raised, .composition .union [raised]]) := rfl
  rcases h.copy_unplaced (show a.contains ⟨3⟩ = true from rfl) false with
    ⟨b, hyields, _, hsource, hok, htree⟩
  rcases hok.mpr ⟨_, hbody⟩ with ⟨copied, hcopied⟩
  exact ⟨h, rfl, b, copied, hyields, hsource, hbody, hcopied, htree _ copied hbody hcopied⟩

end Reachable

end Assembly

end SolidModel
