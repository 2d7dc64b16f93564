import SolidModel.Proofs.Assembly.CopySize
import SolidModel.Proofs.Assembly.Growth
import SolidModel.Proofs.Assembly.Lineage

/-!
# Links of Copies

What a copy is linked to, and what can no longer reach it.

Nothing that was there takes notice of a copy, but for the parent that a plain copy joins. The links
of the copy itself come from those of its source. Children become copies of children, which are made
for it. Operands follow the children where they are children. The others are shared by a plain
copy, and an isolated copy has new ones for them.

From an isolated copy one therefore gets nowhere old, neither down nor up. Going down, links of what
is new lead to what is newer. Going up, the parent of something new has it among its children, and
no old component has got a new child. And a body depends on nothing but what one gets to by such
links, so that whatever happens to an old component alone, the copy looks the same.

## Main definitions

* `Assembly.Connects`: One gets from a component to another along links, down or up.
* `Command.alone`: The only component that a command has to do with.
* `Assembly.Copied`: What becomes of a component and its links in a copy.

## Theorems

* `Assembly.kept_of_connected`: A component is kept if all it is connected to is unchanged.
* `Assembly.WellFormed.body_after_alone`: It looks the same after commands about others alone.
* `Assembly.Extends.not_contains_of_connects`: What is new is connected to nothing old.
* `Assembly.Reachable.copy_rewired`: All of it about a reachable assembly.
-/

namespace SolidModel

open Relation

/-- The only component that a command has to do with, if it is a movement or a new color. Other
    commands link components to each other. -/
def Command.alone : Command → Option ComponentId
  | transform id _ => some id
  | transformOne id _ => some id
  | setColor id _ => some id
  | _ => none

namespace Assembly

variable {a b : Assembly} {id other : ComponentId}

/-- There is a link from a component to another: its parent, a child or an operand. -/
def Linked (a : Assembly) (id other : ComponentId) : Prop :=
  a.parent? id = some other ∨ a.Uses id other

/-- One gets from a component to another along links, down or up: to a parent, to a child or to an
    operand. To reach is to go down only. -/
def Connects (a : Assembly) : ComponentId → ComponentId → Prop := ReflTransGen a.Linked

theorem connects_of_reaches (h : a.Reaches id other) : a.Connects id other :=
  ReflTransGen.mono (fun _ _ huse => Or.inr huse) _ _ h

/-- A component is kept if all it is connected to is unchanged. -/
theorem kept_of_connected (ha : a.WellFormed) (hb : b.WellFormed)
    (h : ∀ x, a.Connects id x → b.get? x = a.get? x) : a.Kept b id := by
  refine ⟨fun d hd => h d (connects_of_reaches hd), fun d hd => ?_⟩
  replace hd := connects_of_reaches hd
  -- The history is that of the ancestors, to which the component is connected as well.
  induction d using ha.parent_induction with
  | hstep d ih =>
      have hget := h d hd
      rw [hb.history_eq, ha.history_eq, parent?_congr hget, direct, direct, hget]
      cases hparent : a.parent? d with
      | none => rfl
      | some parent =>
          rw [Option.elim_some, Option.elim_some, ih parent hparent (hd.tail (Or.inl hparent))]

/-- One component has been changed in what concerns no link, if anything has been changed. -/
def Touched (a : Assembly) (id : ComponentId) (b : Assembly) : Prop :=
  b = a ∨ ∃ change, Component.KeepsLinks change ∧ b = a.modify id change

theorem touched_update (a : Assembly) (id : ComponentId) {change : Component → Component}
    (hchange : Component.KeepsLinks change) : a.Touched id (Edit.update id change a).assembly := by
  unfold Edit.update
  cases hfind : a.find id with
  | error e =>
      rw [Edit.read_bind_of_error hfind]
      exact Or.inl rfl
  | ok c =>
      rw [Edit.read_bind_of_ok hfind]
      exact Or.inr ⟨change, hchange, rfl⟩

/-- A command about one component alone touches that one only. -/
theorem touched_run {command : Command} (halone : command.alone = some id) (a : Assembly) :
    a.Touched id (command.run a).assembly := by
  cases command with
  | transform target steps =>
      cases halone
      exact Edit.map_keeps (touched_update a id (Component.keepsLinks_moving steps))
  | transformOne target step =>
      cases halone
      exact Edit.map_keeps (touched_update a id (Component.keepsLinks_moving [step]))
  | setColor target color =>
      cases halone
      exact Edit.map_keeps (touched_update a id ⟨fun _ => rfl, fun _ => rfl, fun _ => rfl⟩)
  | _ => exact absurd halone (by simp only [Command.alone, reduceCtorEq, not_false_eq_true])

/-- Whoever is not connected to a component looks the same after commands about it alone. There may
    be any number of commands, about different components, and they may fail. -/
theorem WellFormed.body_after_alone (h : a.WellFormed) {commands : List Command}
    (halone : ∀ command ∈ commands, ∃ other, command.alone = some other ∧ ¬ a.Connects id other) :
    (a.after commands).body id = a.body id := by
  -- The induction is on the commands: links stay as they are, and so does who is connected.
  induction commands generalizing a with
  | nil => rfl
  | cons command rest ih =>
      rcases halone command List.mem_cons_self with ⟨other, hother, hnot⟩
      have hrest := fun next hnext => halone next (List.mem_cons_of_mem command hnext)
      change ((command.run a).assembly.after rest).body id = _
      rcases touched_run hother a with heq | ⟨change, hchange, heq⟩
      · rw [heq]
        exact ih h hrest
      · have hwf := h.modify other hchange
        have hlinked : (a.modify other change).Linked = a.Linked := by
          funext x y
          rcases views_modify hchange a other x with ⟨hparent, _, huses⟩
          rw [Linked, Linked, hparent, Uses, Uses, huses]
        have hkept : a.Kept (a.modify other change) id := by
          refine kept_of_connected h hwf fun x hx => get?_modify_of_ne change fun hx' => ?_
          exact hnot (hx' ▸ hx)
        rw [heq, ih hwf fun next hnext => ?_]
        · exact hkept.body_eq h (Nat.le_of_eq (size_modify a other change).symm)
        · rw [Connects, hlinked]
          exact hrest next hnext

/-- What is new in an assembly that has grown without a change is connected to nothing old. Links
    lead from the new to the newer, and a link up is the other side of a link down, so that neither
    kind leads back. -/
theorem Extends.not_contains_of_connects (h : a.Extends b none) (ha : a.WellFormed)
    (hb : b.WellFormed) (hid : ¬ a.contains id = true) (hconnects : b.Connects id other) :
    ¬ a.contains other = true := by
  induction hconnects with
  | refl => exact hid
  | tail _ hlink ih =>
      rcases hlink with hparent | huse
      · -- An old parent would have had an old child.
        intro hold
        have hchild := (hb.mem_children_iff _ _).mpr hparent
        have hkept := h.kept _ hold (by simp only [ne_eq, reduceCtorEq, not_false_eq_true])
        rw [children, hkept, ← children] at hchild
        exact ih (ha.contains_of_uses _ _ (uses_of_mem_children hchild))
      · exact (h.number_le_of_reaches ih (ReflTransGen.single huse)).2

/-- What becomes of a component and its links in a copy. -/
structure Copied (a b : Assembly) (id : ComponentId) (isolated : Bool) (s c : Component) :
    Prop where
  /-- What has been copied. -/
  source : a.get? id = some s
  /-- The copy has the next id. -/
  copy : b.get? a.nextId = some c
  /-- Nothing had that id before. -/
  fresh : ¬ a.contains a.nextId = true
  /-- Whatever was there is unchanged, but for the parent that a plain copy joins. -/
  kept : ∀ x k, a.get? x = some k → b.get? x = some
    (if isolated = false ∧ s.parent = some x then { k with children := k.children ++ [a.nextId] }
      else k)
  /-- A plain copy belongs to whoever owns the source, and an isolated copy to nobody. -/
  parent : c.parent = if isolated then none else s.parent
  /-- No child is listed twice on either side, so that being the child at some place means one
      thing. -/
  nodup : s.children.Nodup ∧ c.children.Nodup
  /-- A child has a new copy in its place, and so has an operand that is a child. Other operands
      are shared, or each has a new copy of its own. -/
  mirrors : Component.Mirrors
    (fun x y => ¬ a.contains y = true ∧ a.Duplicate b a.size (some a.nextId) x y)
    (fun x y => if isolated then ¬ a.contains y = true ∧ a.Duplicate b a.size none x y else y = x)
    s c
  /-- Every child is copied once, and every mention of another operand once if it is not shared. -/
  size : b.size = a.size + 1 + (s.children.map a.copySize).sum
    + if isolated then (s.borrowed.map a.copySize).sum else 0

/-- What comes after the copy is new. -/
theorem not_contains_of_nextId_lt {y : ComponentId} (h : a.nextId.number < y.number) :
    ¬ a.contains y = true := by
  rw [contains_iff_number]
  simp only [nextId] at h
  omega

/-- What a plain copy is. -/
theorem PlainCopy.copied {s c : Component} (h : a.PlainCopy b id s c)
    (hyields : (Edit.copy id false).Yields a a.nextId b) : a.Copied b id false s c where
  source := h.source
  copy := h.copy
  fresh := WellFormed.not_contains_nextId a
  kept x k hk := by
    by_cases hparent : s.parent = some x
    · rw [h.get?_parent hparent hk, if_pos ⟨rfl, hparent⟩]
    · rw [h.get?_eq (contains_of_get? hk) hparent, if_neg fun hor => hparent hor.2, hk]
  parent := h.parent
  nodup := by
    rw [← children_of_get? h.source, ← children_of_get? h.copy]
    exact ⟨h.before.nodup_children id, h.after.nodup_children a.nextId⟩
  mirrors := h.mirrors.imp (fun _ _ _ _ hvw => ⟨not_contains_of_nextId_lt hvw.1, hvw.2⟩)
    fun _ _ _ _ _ hvw => hvw
  size := by rw [← hyields.assembly, h.before.size_copy h.source]

/-- What an isolated copy is. -/
theorem Duplicate.copied (h : a.Duplicate b (a.size + 1) none id a.nextId) (ha : a.WellFormed)
    (hb : b.WellFormed) (hgrown : a.Extends b none)
    (hyields : (Edit.copy id true).Yields a a.nextId b) : ∃ s c, a.Copied b id true s c := by
  rcases h with ⟨s, c, hs, hc, hparent, hparts⟩
  refine ⟨s, c, hs, hc, WellFormed.not_contains_nextId a, fun x k hk => ?_, hparent, ?_, ?_, ?_⟩
  · have hkept := hgrown.kept x (contains_of_get? hk) (by
      simp only [ne_eq, reduceCtorEq, not_false_eq_true])
    rw [hkept, hk, if_neg fun hor => Bool.noConfusion hor.1]
  · rw [← children_of_get? hs, ← children_of_get? hc]
    exact ⟨ha.nodup_children id, hb.nodup_children a.nextId⟩
  · exact hparts.imp (fun _ _ _ _ hvw => ⟨not_contains_of_nextId_lt hvw.1, hvw.2⟩)
      fun _ _ _ _ _ hvw => ⟨not_contains_of_nextId_lt hvw.1, hvw.2⟩
  · rw [← hyields.assembly, ha.size_copy hs]

namespace Reachable

/-- Whatever a reachable assembly contains can be copied, plainly or in isolation, and the copy is
    linked as its source is. `Copied` says how, for the source `s` and the copy `c`, and how many
    components there are afterwards. The part behind it counts the components that a copy takes:
    one, and what the children and the operands that are no children take for themselves.

    The last part is about isolated copies. From such a copy there is no way along links, up or
    down, to anything old, so that no commands about old components alone make a difference to its
    body. -/
theorem copy_rewired (h : a.Reachable) (hid : a.contains id = true) (isolated : Bool) :
    ∃ b s c, (Edit.copy id isolated).Yields a a.nextId b ∧ a.Copied b id isolated s c ∧
      (∀ x k, a.get? x = some k → a.copySize x =
        1 + (k.children.map a.copySize).sum + (k.borrowed.map a.copySize).sum) ∧
      (isolated = true →
        (∀ other, b.Connects a.nextId other → ¬ a.contains other = true) ∧
        ∀ commands, (∀ command ∈ commands,
            ∃ other, command.alone = some other ∧ a.contains other = true) →
          (b.after commands).body a.nextId = b.body a.nextId) := by
  have hwf := h.wellFormed
  cases isolated with
  | true =>
      rcases Edit.copy_isolated_yields hwf hwf (Extends.refl a none) hid with
        ⟨b, hyields, hb, hgrown, hdup⟩
      rcases hdup.copied hwf hb hgrown hyields with ⟨s, c, hcopied⟩
      -- Nothing old is connected with the copy, so that what is done to it alone never gets there.
      have hnew : ∀ other, b.Connects a.nextId other → ¬ a.contains other = true :=
        fun _ => hgrown.not_contains_of_connects hwf hb hcopied.fresh
      refine ⟨b, s, c, hyields, hcopied, fun x k => hwf.copySize_eq, fun _ => ⟨hnew, ?_⟩⟩
      intro commands halone
      refine hb.body_after_alone fun command hcommand => ?_
      rcases halone command hcommand with ⟨other, hother, hold⟩
      exact ⟨other, hother, fun hconnects => hnew other hconnects hold⟩
  | false =>
      rcases exists_plainCopy hwf hid with ⟨b, s, c, hyields, hcopy⟩
      exact ⟨b, s, c, hyields, hcopy.copied hyields, fun x k => hwf.copySize_eq,
        fun hfalse => absurd hfalse Bool.false_ne_true⟩

/-- A hole is a child that two compositions name, one of them beside a component that is no child.
    The isolated copy has one copy of the hole and one of the other component, and does not notice
    what becomes of those two. -/
theorem copy_rewired_isolated :
    let c : Component :=
      { children := [⟨5⟩], compositions := [⟨.difference, [⟨5⟩]⟩, ⟨.union, [⟨6⟩, ⟨5⟩]⟩] }
    let a : Assembly := ⟨#[
      { parent := some ⟨3⟩, shape := some (.sphere 1) },
      { shape := some (.sphere 2) },
      { children := [⟨1⟩], compositions := [⟨.difference, [⟨1⟩]⟩, ⟨.union, [⟨2⟩, ⟨1⟩]⟩] }]⟩
    let b : Assembly := ⟨#[
      { parent := some ⟨3⟩, shape := some (.sphere 1) },
      { shape := some (.sphere 2) },
      { children := [⟨1⟩], compositions := [⟨.difference, [⟨1⟩]⟩, ⟨.union, [⟨2⟩, ⟨1⟩]⟩] },
      c,
      { parent := some ⟨4⟩, shape := some (.sphere 1) },
      { shape := some (.sphere 2) }]⟩
    a.Reachable ∧ a.contains ⟨3⟩ = true ∧ (Edit.copy ⟨3⟩ true).Yields a ⟨4⟩ b ∧
      (∃ s, a.Copied b ⟨3⟩ true s c) ∧ ¬ b.Connects ⟨4⟩ ⟨2⟩ ∧
      (b.after [.transformOne ⟨1⟩ (.translate ⟨0, 0, 1⟩), .setColor ⟨2⟩ none]).body ⟨4⟩ =
        b.body ⟨4⟩ := by
  intro c a b
  have h : a.Reachable :=
    ((Reachable.empty.step (.add (.sphere 1))).step (.add (.sphere 2))).step (.create
      { children := [⟨1⟩], compositions := [⟨.difference, [⟨1⟩]⟩, ⟨.union, [⟨2⟩, ⟨1⟩]⟩] })
  have hmade : (Edit.copy ⟨3⟩ true a).assembly = b := by
    unfold a b c
    rfl
  rcases h.copy_rewired (show a.contains ⟨3⟩ = true from rfl) true with
    ⟨b', s, c', hyields, hcopied, _, hisolated⟩
  cases hyields.assembly.symm.trans hmade
  cases hcopied.copy.symm.trans (show b.get? ⟨4⟩ = some c from rfl)
  rcases hisolated rfl with ⟨hnew, hafter⟩
  refine ⟨h, rfl, hyields, ⟨s, hcopied⟩, fun hconnects => hnew ⟨2⟩ hconnects rfl, ?_⟩
  refine hafter _ fun command hcommand => ?_
  rcases List.mem_cons.mp hcommand with rfl | hcommand
  · exact ⟨⟨1⟩, rfl, rfl⟩
  · rcases List.mem_singleton.mp hcommand with rfl
    exact ⟨⟨2⟩, rfl, rfl⟩

end Reachable

end Assembly

end SolidModel
