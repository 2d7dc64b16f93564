import SolidModel.Proofs.Assembly.Kept
import SolidModel.Proofs.Assembly.Reachable

/-!
# Growth

What is in an assembly stays in it.

There is no command that takes something away, but that is not enough for nothing to be lost. A link
overwrites the parent of the child whatever it was, and it is made in many places. That nobody is
taken from a parent rests on what has been asked before. Either the child had no parent, or it had
this one.

Everything else is kept by where it is written to. The lists of a component are only ever appended
to, and its shape is not written to at all. What does change freely is its color.

Growth is reflexive and transitive, so that what holds of one change holds of any number of commands
in a row. Some of them may have failed.

## Main definitions

* `Component.GrowsTo`, `Assembly.GrowsTo`: Nothing has been lost.
* `Assembly.after`: What is left by several commands.

## Theorems

* `Assembly.growsTo_link`: A parent is not overwritten.
* `Assembly.Change.growsTo`: Nothing is lost by a change.
* `Command.run_growsTo`: Nor by a command.
* `Assembly.Reachable.after_growsTo`: Nor by any number of them.
-/

namespace SolidModel

namespace Component

/-- A component is still the same solid, and all that has been done to it has been added to what it
    was: steps to its steps, children to its children, and compositions to its compositions, each of
    which has the operator and the operands it had. If it has had a parent, it has that parent. -/
structure GrowsTo (c c' : Component) : Prop where
  /-- It is the solid that it was. -/
  shape : c'.shape = c.shape
  /-- Steps are only added at the end. -/
  direct : c.direct <+: c'.direct
  /-- Children are only added at the end. -/
  children : c.children <+: c'.children
  /-- Compositions are only added at the end. One that is recorded keeps its operator and its
      operands. -/
  compositions : c.compositions <+: c'.compositions
  /-- A parent once set is never replaced or taken away. -/
  parent : ∀ parent, c.parent = some parent → c'.parent = some parent

namespace GrowsTo

variable {c c' c'' : Component}

theorem refl (c : Component) : c.GrowsTo c where
  shape := rfl
  direct := List.prefix_rfl
  children := List.prefix_rfl
  compositions := List.prefix_rfl
  parent _ h := h

theorem trans (h : c.GrowsTo c') (h' : c'.GrowsTo c'') : c.GrowsTo c'' where
  shape := h'.shape.trans h.shape
  direct := h.direct.trans h'.direct
  children := h.children.trans h'.children
  compositions := h.compositions.trans h'.compositions
  parent p hp := h'.parent p (h.parent p hp)

theorem children_append (c : Component) (more : List ComponentId) :
    c.GrowsTo { c with children := c.children ++ more } :=
  { refl c with children := List.prefix_append _ _ }

theorem adopting (c : Component) (child : ComponentId) : c.GrowsTo (c.adopting child) := by
  unfold Component.adopting
  split
  · exact refl c
  · exact children_append c [child]

theorem composing (c : Component) (composition : Composition) :
    c.GrowsTo (c.composing composition) :=
  { refl c with compositions := List.prefix_append _ _ }

theorem moving (c : Component) (steps : List Transformation) : c.GrowsTo (c.moving steps) :=
  { refl c with direct := List.prefix_append _ _ }

/-- A component without a parent may be given one, and one with a parent may be given the same. -/
theorem owned (parent : ComponentId) (h : c.parent = none ∨ c.parent = some parent) :
    c.GrowsTo { c with parent := some parent } where
  shape := rfl
  direct := List.prefix_rfl
  children := List.prefix_rfl
  compositions := List.prefix_rfl
  parent p hp := by
    rcases h with hnone | hsome
    · rw [hnone] at hp
      exact absurd hp (by simp only [reduceCtorEq, not_false_eq_true])
    · exact hsome.symm.trans hp

end GrowsTo

end Component

namespace Assembly

/-- Every component of one assembly is in another one, and has lost nothing. -/
def GrowsTo (a b : Assembly) : Prop :=
  ∀ id c, a.get? id = some c → ∃ c', b.get? id = some c' ∧ c.GrowsTo c'

namespace GrowsTo

variable {a b c : Assembly}

theorem refl (a : Assembly) : a.GrowsTo a := fun _ k hk => ⟨k, hk, Component.GrowsTo.refl k⟩

theorem trans (h : a.GrowsTo b) (h' : b.GrowsTo c) : a.GrowsTo c := by
  intro id k hk
  rcases h id k hk with ⟨k', hk', hgrows⟩
  rcases h' id k' hk' with ⟨k'', hk'', hgrows'⟩
  exact ⟨k'', hk'', hgrows.trans hgrows'⟩

theorem of_get?_eq (h : ∀ id, a.contains id = true → b.get? id = a.get? id) : a.GrowsTo b := by
  intro id k hk
  exact ⟨k, by rw [h id (contains_of_get? hk), hk], Component.GrowsTo.refl k⟩

end GrowsTo

variable {a b : Assembly}

theorem growsTo_modify (id : ComponentId) {change : Component → Component}
    (h : ∀ c, a.get? id = some c → c.GrowsTo (change c)) : a.GrowsTo (a.modify id change) := by
  intro other c hc
  by_cases heq : other = id
  · rw [heq] at hc ⊢
    exact ⟨change c, get?_modify_self change hc, h c hc⟩
  · rw [get?_modify_of_ne change heq]
    exact ⟨c, hc, Component.GrowsTo.refl c⟩

/-- What is linked has no parent yet, or this one. So there is nothing to be overwritten. -/
theorem growsTo_link {parent child : ComponentId}
    (h : a.parent? child = none ∨ a.parent? child = some parent) :
    a.GrowsTo (a.link parent child) := by
  have hchild : a.GrowsTo (a.modify child fun c => { c with parent := some parent }) := by
    refine growsTo_modify child fun c hc => Component.GrowsTo.owned parent ?_
    rwa [← parent?_of_get? hc]
  exact hchild.trans (growsTo_modify parent fun c _ => Component.GrowsTo.adopting c child)

/-- The parent that a plain copy joins has one more child. -/
theorem PlainCopy.growsTo {id : ComponentId} {s c : Component} (h : a.PlainCopy b id s c) :
    a.GrowsTo b := by
  intro other k hk
  by_cases hparent : s.parent = some other
  · exact ⟨_, h.get?_parent hparent hk, Component.GrowsTo.children_append k [a.nextId]⟩
  · exact ⟨k, by rw [h.get?_eq (contains_of_get? hk) hparent, hk], Component.GrowsTo.refl k⟩

/-- Nothing is lost by a change. -/
theorem Change.growsTo (h : a.Change b) : a.GrowsTo b := by
  cases h with
  | insert _ _ _ => exact GrowsTo.of_get?_eq fun id hid => get?_insert_of_contains _ hid
  | link _ hchild => exact growsTo_link hchild.free
  | record _ _ _ => exact growsTo_modify _ fun c _ => Component.GrowsTo.composing c _
  | move id steps => exact growsTo_modify id fun c _ => Component.GrowsTo.moving c steps
  | paint id color => exact growsTo_modify id fun c _ => { Component.GrowsTo.refl c with }
  | isolatedCopies hgrown _ =>
      exact GrowsTo.of_get?_eq fun id hid => hgrown.kept id hid (by
        simp only [ne_eq, reduceCtorEq, not_false_eq_true])
  | plainCopy hcopy => exact hcopy.growsTo

/-- Nothing is lost by any number of changes. -/
theorem Changes.growsTo (h : a.Changes b) : a.GrowsTo b := by
  induction h with
  | refl => exact GrowsTo.refl a
  | tail _ hlast ih => exact ih.trans hlast.growsTo

/-- What is left by several commands, given one after another. Some of them may have failed, and the
    next one is then given to whatever the failure has left. -/
def after (a : Assembly) (commands : List Command) : Assembly :=
  commands.foldl (fun a command => (command.run a).assembly) a

end Assembly

/-- Nothing is lost by a command, whether it succeeds or not. It comes down to the changes that a
    command consists of, and those that failed commands have made are among them. -/
theorem Command.run_growsTo {a : Assembly} (h : a.WellFormed) (command : Command) :
    a.GrowsTo (command.run a).assembly :=
  (command.run_changes h).growsTo

namespace Assembly

namespace Reachable

variable {a : Assembly}

/-- Whatever commands are given to a reachable assembly, every component is still there under its
    id. It stays the solid it is, keeps the parent that it has, and has steps, children and
    compositions only added to those it has. Commands that fail are among them, and so are those
    that have done a part of what they were asked for. -/
theorem after_growsTo (h : a.Reachable) (commands : List Command) :
    a.GrowsTo (a.after commands) := by
  induction commands generalizing a with
  | nil => exact GrowsTo.refl a
  | cons command rest ih => exact (command.run_growsTo h.wellFormed).trans (ih (h.step command))

/-- A sphere that belongs to one component stays with it, although another one asks for it. It gets
    a copy beside it, and what it belongs to gets a parent. -/
theorem after_growsTo_asked_for :
    let a : Assembly := ⟨#[
      { parent := some ⟨2⟩, shape := some (.sphere 1) },
      { children := [⟨1⟩] },
      { }]⟩
    let b := a.after [.addChild ⟨3⟩ ⟨1⟩, .copy ⟨1⟩ false,
      .compose ⟨2⟩ .difference [⟨3⟩] { inPlace := false },
      .compose ⟨3⟩ .union [⟨1⟩] { inPlace := false }]
    a.Reachable ∧ a.GrowsTo b ∧ b.size = 5 ∧ b.parent? ⟨1⟩ = some ⟨2⟩ ∧
      b.children ⟨2⟩ = [⟨1⟩, ⟨4⟩] ∧ b.parent? ⟨2⟩ = some ⟨5⟩ := by
  have h : Reachable ⟨#[
      { parent := some ⟨2⟩, shape := some (.sphere 1) },
      { children := [⟨1⟩] },
      { }]⟩ :=
    ((Reachable.empty.step (.add (.sphere 1))).step (.create { children := [⟨1⟩] })).step .container
  exact ⟨h, h.after_growsTo _, by decide +kernel⟩

end Reachable

end Assembly

end SolidModel
