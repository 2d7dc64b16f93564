import Mathlib.Data.List.Forall2
import SolidModel.Proofs.Assembly.WellFormed

/-!
# Duplicates

What a copy of a component looks like, and what the making of one leaves alone.

An assembly that grows keeps what it had, but for a component somebody is working on.
`Assembly.Extends` says so, and it says one thing about what is new: links of new components lead
to components that are newer still. The links of a copy therefore never lead back to what it was
copied from, which is what keeps circles out while it is made, and it is also how one sees that a
part of a copy, once finished, is not touched by what is made later.

`Assembly.Duplicate` relates a component to its isolated copy, part by part. Children correspond
in order. Operands do too: an operand that is the child at some place corresponds to the child at
that place, and any other operand has a duplicate of its own, which nobody owns. The sources are
looked up in one assembly and the copies in another one, because the sources never change while
the other assembly grows.

## Main definitions

* `Assembly.Extends`: One assembly has grown into another.
* `Component.Mirrors`: Two components correspond part by part.
* `Assembly.Duplicate`: One component is an isolated copy of another, all the way down.
* `Assembly.Shows`: An assembly has what a component is made of.

## Theorems

* `Assembly.Extends.trans`: Growth upon growth.
* `Assembly.Extends.number_le_of_reaches`: From what is new one gets only to what is newer.
* `Assembly.Duplicate.congr`: A duplicate lasts as long as nothing touches its parts.
* `Assembly.Duplicate.link`: A duplicate may be given a parent.
* `Assembly.Shows.not_reaches`: A component in the making is not reached from its sources.
-/

namespace SolidModel

open Relation

/-- Relations between lists may be weakened where the elements are known. -/
theorem forall₂_imp_of_mem {α β : Type} {r r' : α → β → Prop} {l : List α} {l' : List β}
    (h : List.Forall₂ r l l') (himp : ∀ x ∈ l, ∀ y ∈ l', r x y → r' x y) :
    List.Forall₂ r' l l' := by
  induction h with
  | nil => exact List.Forall₂.nil
  | cons hxy _ ih =>
      refine List.Forall₂.cons (himp _ List.mem_cons_self _ List.mem_cons_self hxy) ?_
      exact ih fun x hx y hy =>
        himp x (List.mem_cons_of_mem _ hx) y (List.mem_cons_of_mem _ hy)

/-- Every element on the right corresponds to one on the left. -/
theorem exists_of_mem_right {α β : Type} {r : α → β → Prop} {l : List α} {l' : List β}
    (h : List.Forall₂ r l l') {y : β} (hy : y ∈ l') : ∃ x ∈ l, r x y := by
  induction h with
  | nil => exact absurd hy List.not_mem_nil
  | cons hxy _ ih =>
      rcases List.mem_cons.mp hy with rfl | hy
      · exact ⟨_, List.mem_cons_self, hxy⟩
      · rcases ih hy with ⟨x, hx, hr⟩
        exact ⟨x, List.mem_cons_of_mem _ hx, hr⟩

/-- Two compositions of one operator whose operands correspond in order. -/
structure Composition.Mirrors (part : ComponentId → ComponentId → Prop) (p q : Composition) :
    Prop where
  /-- They combine in the same way. -/
  operator : q.operator = p.operator
  /-- They combine equally many, and each operand stands where its counterpart does. -/
  operands : List.Forall₂ part p.operands q.operands

/-- Two components that differ in their links only, and whose links correspond: children in
    order, operands that are children to the children in the same place, and other operands in
    their own way. -/
structure Component.Mirrors (child foreign : ComponentId → ComponentId → Prop) (s c : Component) :
    Prop where
  /-- They are the same solid. -/
  shape : c.shape = s.shape
  /-- They have the same color. -/
  color : c.color = s.color
  /-- They have been through the same by themselves. -/
  direct : c.direct = s.direct
  /-- Their children correspond in order. -/
  children : List.Forall₂ child s.children c.children
  /-- Their compositions correspond in order, and so do the operands: the child at some place to the
      child at that place, and what is no child in its own way. -/
  compositions : List.Forall₂ (Composition.Mirrors fun x y =>
    (x, y) ∈ s.children.zip c.children ∨ x ∉ s.children ∧ foreign x y)
    s.compositions c.compositions

namespace Component

theorem mem_composed {c : Component} {id : ComponentId} :
    id ∈ c.composed ↔ ∃ composition ∈ c.compositions, id ∈ composition.operands :=
  List.mem_flatMap

namespace Mirrors

variable {child child' foreign foreign' : ComponentId → ComponentId → Prop} {s c : Component}

/-- A correspondence may be weakened where the links are known. -/
theorem imp (h : Component.Mirrors child foreign s c)
    (hchild : ∀ x ∈ s.children, ∀ y ∈ c.children, child x y → child' x y)
    (hforeign : ∀ x ∈ s.composed, x ∉ s.children → ∀ y ∈ c.composed,
      foreign x y → foreign' x y) :
    Component.Mirrors child' foreign' s c where
  shape := h.shape
  color := h.color
  direct := h.direct
  children := forall₂_imp_of_mem h.children hchild
  compositions := by
    refine forall₂_imp_of_mem h.compositions fun p hp q hq hpq => ⟨hpq.operator, ?_⟩
    refine forall₂_imp_of_mem hpq.operands fun x hx y hy hxy => hxy.imp_right ?_
    rintro ⟨hnot, hforeign'⟩
    exact ⟨hnot, hforeign x (mem_composed.mpr ⟨p, hp, hx⟩) hnot y
      (mem_composed.mpr ⟨q, hq, hy⟩) hforeign'⟩

/-- Two correspondences between the same components are one. -/
theorem and (h : Component.Mirrors child foreign s c)
    (h' : Component.Mirrors child' foreign' s c) :
    Component.Mirrors (fun x y => child x y ∧ child' x y) (fun x y => foreign x y ∧ foreign' x y)
      s c where
  shape := h.shape
  color := h.color
  direct := h.direct
  children := List.Forall₂.mp (fun _ _ hxy hxy' => ⟨hxy, hxy'⟩) h.children h'.children
  compositions := by
    refine List.Forall₂.mp (fun p q hpq hpq' => ⟨hpq.operator, ?_⟩) h.compositions h'.compositions
    refine List.Forall₂.mp (fun x y hxy hxy' => ?_) hpq.operands hpq'.operands
    rcases hxy with hzip | ⟨hnot, hforeign⟩
    · exact Or.inl hzip
    · rcases hxy' with hzip | ⟨_, hforeign'⟩
      · exact Or.inl hzip
      · exact Or.inr ⟨hnot, hforeign, hforeign'⟩

/-- Every operand of the source has a counterpart. -/
theorem exists_of_mem_composed (h : Component.Mirrors child foreign s c) {x : ComponentId}
    (hx : x ∈ s.composed) :
    ∃ y, y ∈ c.composed ∧ ((x, y) ∈ s.children.zip c.children ∨ x ∉ s.children ∧ foreign x y) := by
  rcases mem_composed.mp hx with ⟨p, hp, hx⟩
  rcases exists_of_mem_right h.compositions.flip hp with ⟨q, hq, hpq⟩
  rcases exists_of_mem_right hpq.operands.flip hx with ⟨y, hy, hxy⟩
  exact ⟨y, mem_composed.mpr ⟨q, hq, hy⟩, hxy⟩

/-- Whatever the source uses has a counterpart. -/
theorem exists_of_mem_uses_left (h : Component.Mirrors child foreign s c) {x : ComponentId}
    (hx : x ∈ s.uses) : ∃ y, child x y ∨ x ∉ s.children ∧ foreign x y := by
  rcases List.mem_append.mp hx with hx | hx
  · rcases exists_of_mem_right h.children.flip hx with ⟨y, _, hxy⟩
    exact ⟨y, Or.inl hxy⟩
  · rcases h.exists_of_mem_composed hx with ⟨y, _, hxy⟩
    exact ⟨y, hxy.imp_left fun hzip => List.forall₂_zip h.children hzip⟩

/-- Every operand of a copy is the counterpart of one of the source. -/
theorem exists_of_mem_composed_right (h : Component.Mirrors child foreign s c) {y : ComponentId}
    (hy : y ∈ c.composed) :
    ∃ x, x ∈ s.composed ∧ ((x, y) ∈ s.children.zip c.children ∨ x ∉ s.children ∧ foreign x y) := by
  rcases mem_composed.mp hy with ⟨q, hq, hy⟩
  rcases exists_of_mem_right h.compositions hq with ⟨p, hp, hpq⟩
  rcases exists_of_mem_right hpq.operands hy with ⟨x, hx, hxy⟩
  exact ⟨x, mem_composed.mpr ⟨p, hp, hx⟩, hxy⟩

/-- Whatever a copy uses corresponds to something that its source uses. -/
theorem exists_of_mem_uses (h : Component.Mirrors child foreign s c) {y : ComponentId}
    (hy : y ∈ c.uses) : ∃ x ∈ s.uses, child x y ∨ x ∉ s.children ∧ foreign x y := by
  rcases List.mem_append.mp hy with hy | hy
  · rcases exists_of_mem_right h.children hy with ⟨x, hx, hxy⟩
    exact ⟨x, List.mem_append_left _ hx, Or.inl hxy⟩
  · rcases h.exists_of_mem_composed_right hy with ⟨x, hx, hxy⟩
    refine ⟨x, List.mem_append_right _ hx, hxy.imp_left fun hzip => ?_⟩
    exact List.forall₂_zip h.children hzip

end Mirrors

end Component

namespace Assembly

/-- One assembly has grown into another. Except for one component, what was there is unchanged,
    and links of what is new lead to what is newer. -/
structure Extends (a b : Assembly) (changed : Option ComponentId) : Prop where
  /-- What was there is what it was, apart from the one component. -/
  kept : ∀ id, a.contains id = true → changed ≠ some id → b.get? id = a.get? id
  /-- Nothing is taken away, not even the one component. -/
  contains : ∀ id, a.contains id = true → b.contains id = true
  /-- What is new is linked to newer components only. -/
  rising : ∀ id other, ¬ a.contains id = true → b.Uses id other → id.number < other.number

namespace Extends

variable {a b c : Assembly} {changed : Option ComponentId}

theorem refl (a : Assembly) (changed : Option ComponentId) : a.Extends a changed where
  kept _ _ _ := rfl
  contains _ h := h
  rising _ _ hnot huse := absurd (contains_of_mem_uses huse) hnot

/-- What is changed by nobody may be said to be changed by somebody. -/
theorem weaken (h : a.Extends b none) (changed : Option ComponentId) : a.Extends b changed where
  kept id hid _ := h.kept id hid (by simp only [ne_eq, reduceCtorEq, not_false_eq_true])
  contains := h.contains
  rising := h.rising

/-- Growth upon growth, with the same component being worked on. -/
theorem trans (h : a.Extends b changed) (h' : b.Extends c changed)
    (hknown : ∀ id, changed = some id → a.contains id = true) : a.Extends c changed where
  kept id hid hne := (h'.kept id (h.contains id hid) hne).trans (h.kept id hid hne)
  contains id hid := h'.contains id (h.contains id hid)
  rising id other hnot huse := by
    by_cases hid : b.contains id = true
    · -- What came in between is not what is being worked on.
      have hne : changed ≠ some id := fun heq => hnot (hknown id heq)
      rw [Uses, uses_congr (h'.kept id hid hne)] at huse
      exact h.rising id other hnot huse
    · exact h'.rising id other hid huse

/-- What is not there yet will have a greater number than all that is. -/
theorem number_lt_of_new {a : Assembly} {id new : ComponentId} (hid : a.contains id = true)
    (hnew : ¬ a.contains new = true) (hpos : 0 < new.number) : id.number < new.number := by
  rw [contains_iff_number] at hid hnew
  omega

theorem pos_of_contains {a : Assembly} {id : ComponentId} (h : a.contains id = true) :
    0 < id.number :=
  (contains_iff_number.mp h).1

/-- From what is new one gets only to what is newer. So there is no way back to what was there, and
    no circle that a new component could be part of. -/
theorem number_le_of_reaches (h : a.Extends b changed) {id other : ComponentId}
    (hid : ¬ a.contains id = true) (hreach : b.Reaches id other) :
    id.number ≤ other.number ∧ ¬ a.contains other = true := by
  induction hreach with
  | refl => exact ⟨Nat.le_refl _, hid⟩
  | tail _ hstep ih =>
      have hlt := h.rising _ _ ih.2 hstep
      refine ⟨Nat.le_trans ih.1 (Nat.le_of_lt hlt), fun hother => ?_⟩
      have := number_lt_of_new hother ih.2 (pos_of_contains (contains_of_mem_uses hstep))
      omega

/-- From what is new one does not get back to what was there. -/
theorem not_reaches_old (h : a.Extends b changed) {id other : ComponentId}
    (hid : ¬ a.contains id = true) (hother : a.contains other = true) : ¬ b.Reaches id other :=
  fun hreach => (h.number_le_of_reaches hid hreach).2 hother

/-- What was there gets nowhere new if nothing was changed. -/
theorem reaches_old (h : a.Extends b none) (hwf : a.WellFormed) {id other : ComponentId}
    (hid : a.contains id = true) (hreach : b.Reaches id other) : a.Reaches id other := by
  induction hreach with
  | refl => exact ReflTransGen.refl
  | tail _ hstep ih =>
      have hknown := hwf.contains_of_reaches hid ih
      rw [Uses, uses_congr (h.kept _ hknown (by simp only [ne_eq, reduceCtorEq,
        not_false_eq_true]))] at hstep
      exact ReflTransGen.tail ih hstep

end Extends

/-- One component is an isolated copy of another, all the way down to a depth. The parts of a copy
    are newer than it is. A child of the copy is owned by it, and what stands in for any other
    operand is owned by nobody. The source is looked up in `a` and the copy in `b`. -/
def Duplicate (a b : Assembly) : Nat → Option ComponentId → ComponentId → ComponentId → Prop
  | 0, _, _, _ => False
  | depth + 1, parent, source, copy =>
    ∃ s c, a.get? source = some s ∧ b.get? copy = some c ∧ c.parent = parent ∧
      Component.Mirrors
        (fun x y => copy.number < y.number ∧ Duplicate a b depth (some copy) x y)
        (fun x y => copy.number < y.number ∧ Duplicate a b depth none x y) s c

namespace Duplicate

variable {a b b' : Assembly} {parent : Option ComponentId} {source copy : ComponentId}

theorem get?_copy {depth : Nat} (h : a.Duplicate b depth parent source copy) :
    ∃ c, b.get? copy = some c ∧ c.parent = parent := by
  cases depth with
  | zero => exact h.elim
  | succ depth =>
      rcases h with ⟨s, c, _, hc, hparent, _⟩
      exact ⟨c, hc, hparent⟩

theorem contains_copy {depth : Nat} (h : a.Duplicate b depth parent source copy) :
    b.contains copy = true := by
  rcases h.get?_copy with ⟨c, hc, _⟩
  exact contains_of_get? hc

theorem parent?_copy {depth : Nat} (h : a.Duplicate b depth parent source copy) :
    b.parent? copy = parent := by
  rcases h.get?_copy with ⟨c, hc, hparent⟩
  rw [parent?_of_get? hc, hparent]

/-- A duplicate lasts as long as nothing touches what is as new as it is. Its parts are all newer
    than it is, so that this is enough, and it can be asked without knowing the parts. -/
theorem congr {depth : Nat} : ∀ {parent : Option ComponentId} {source copy : ComponentId},
    a.Duplicate b depth parent source copy →
    (∀ y, copy.number ≤ y.number → b.contains y = true → b'.get? y = b.get? y) →
    a.Duplicate b' depth parent source copy := by
  induction depth with
  | zero => exact fun h _ => h.elim
  | succ depth ih =>
      rintro parent source copy ⟨s, c, hs, hc, hparent, hparts⟩ hkept
      refine ⟨s, c, hs, ?_, hparent, hparts.imp ?_ ?_⟩
      · rw [hkept copy (Nat.le_refl _) (contains_of_get? hc), hc]
      · exact fun x _ y _ h => ⟨h.1, ih h.2 fun z hz => hkept z (by omega)⟩
      · exact fun x _ _ y _ h => ⟨h.1, ih h.2 fun z hz => hkept z (by omega)⟩

/-- A duplicate that nobody owns may be given an older parent. -/
theorem link {depth : Nat} {root : ComponentId} (h : a.Duplicate b depth none source copy)
    (hroot : root.number < copy.number) :
    a.Duplicate (b.link root copy) depth (some root) source copy := by
  cases depth with
  | zero => exact h.elim
  | succ depth =>
      rcases h with ⟨s, c, hs, hc, _, hparts⟩
      have hne : ∀ y : ComponentId, root.number < y.number → y ≠ root := by
        rintro y hy rfl
        exact Nat.lt_irrefl _ hy
      -- The parts are newer than the copy, so the parentage is not about them.
      have hkept : ∀ y z : ComponentId, copy.number < y.number → y.number ≤ z.number →
          (b.link root copy).get? z = b.get? z := by
        intro y z hy hz
        refine get?_link_of_ne (hne z (by omega)) ?_
        rintro rfl
        omega
      refine ⟨s, { c with parent := some root }, hs, ?_, rfl, ?_⟩
      · simp only [get?_link, hc, Option.map_some, if_true, hne copy hroot, if_false]
      · have hparts' : Component.Mirrors _ _ s { c with parent := some root } :=
          ⟨hparts.shape, hparts.color, hparts.direct, hparts.children, hparts.compositions⟩
        refine hparts'.imp ?_ ?_
        · exact fun x _ y _ h => ⟨h.1, h.2.congr fun z hz _ => hkept y z h.1 hz⟩
        · exact fun x _ _ y _ h => ⟨h.1, h.2.congr fun z hz _ => hkept y z h.1 hz⟩

end Duplicate

/-- An assembly has all that a component is made of in another one, apart from `root`, and no
    walk down from it exceeds a depth. -/
structure Shows (a m : Assembly) (root : ComponentId) (depth : Nat) (id : ComponentId) : Prop where
  /-- Every walk down from the component ends in time. -/
  ends : EndsWithin a.uses depth id
  /-- A walk down meets only what is the same in both assemblies, and never the component in the
      making. -/
  get?_eq : ∀ y, a.Reaches id y → y ≠ root ∧ ∃ c, a.get? y = some c ∧ m.get? y = some c

namespace Shows

variable {a m m' : Assembly} {root id : ComponentId} {depth : Nat}

theorem contains (h : a.Shows m root depth id) : m.contains id = true := by
  rcases h.get?_eq id ReflTransGen.refl with ⟨_, c, _, hc⟩
  exact contains_of_get? hc

/-- What is shown stays shown while only the root is worked on. -/
theorem grow (h : a.Shows m root depth id) (hext : m.Extends m' (some root)) :
    a.Shows m' root depth id where
  ends := h.ends
  get?_eq y hy := by
    rcases h.get?_eq y hy with ⟨hne, c, hac, hmc⟩
    refine ⟨hne, c, hac, ?_⟩
    rw [hext.kept y (contains_of_get? hmc) (fun heq => hne (Option.some.inj heq).symm), hmc]

/-- Walks from what is shown are the same in both assemblies. -/
theorem reaches_iff (h : a.Shows m root depth id) {other : ComponentId} :
    m.Reaches id other → a.Reaches id other := by
  intro hreach
  induction hreach with
  | refl => exact ReflTransGen.refl
  | tail _ hstep ih =>
      rcases h.get?_eq _ ih with ⟨_, c, hac, hmc⟩
      rw [Uses, uses_of_get? hmc, ← uses_of_get? hac] at hstep
      exact ReflTransGen.tail ih hstep

/-- The root is not reached from what is shown. So whatever is linked to the root while it is in the
    making, it closes no circle. -/
theorem not_reaches (h : a.Shows m root depth id) : ¬ m.Reaches id root :=
  fun hreach => (h.get?_eq root (h.reaches_iff hreach)).1 rfl

end Shows

end Assembly

end SolidModel
