import SolidModel.Proofs.Assembly.Lineage

/-!
# Reachable Assemblies

What holds of every assembly that operations can make.

An assembly is reachable if it comes from the one without components by commands, in any order and
with any arguments. A command that fails counts as well, for what it has done by then stays done.
Nobody promises that arguments make sense: ids may name nothing, lists may repeat themselves, and
what is asked for may be a circle.

Well-formedness is the invariant that every command keeps. That a recursion along links ends is a
consequence of it and needs nothing more. So is it that the cursor over the transformations of a
component ends, although nothing bounds the turns that it takes.

## Main definitions

* `Command`: An operation with its arguments.
* `Command.run`: What it does.
* `Assembly.Reachable`: The assemblies that commands make.
* `Assembly.Uncut`: No recursion along links is cut off by its depth, and every cursor ends.

## Theorems

* `Command.run_changes`: A command is a sequence of changes.
* `Command.run_keeps`: One command keeps an assembly well-formed.
* `Assembly.Reachable.wellFormed`: So does any number of them.
* `Assembly.Reachable.links_sound`: The links of a reachable assembly.
-/

namespace SolidModel

/-- An operation on an assembly with its arguments. -/
inductive Command where
  | create (draft : Draft)
  | add (shape : Shape)
  | container
  | addChild (parent child : ComponentId)
  | addChildren (parent : ComponentId) (children : List ComponentId)
  | setParent (child parent : ComponentId)
  | transform (id : ComponentId) (steps : List Transformation)
  | transformOne (id : ComponentId) (step : Transformation)
  | setColor (id : ComponentId) (color : Option Color)
  | compose (id : ComponentId) (operator : Operator) (operands : List ComponentId)
      (mode : ComposeMode)
  | union (id : ComponentId) (operands : List ComponentId)
  | difference (id : ComponentId) (operands : List ComponentId)
  | intersection (id : ComponentId) (operands : List ComponentId)
  | copy (id : ComponentId) (isolated : Bool)

namespace Command

/-- What a command does. Some commands hand on the id of a component. -/
def run : Command → Edit (Option ComponentId)
  | create draft => some <$> Edit.create draft
  | add shape => some <$> Edit.add shape
  | container => some <$> Edit.container
  | addChild parent child => (fun _ => none) <$> Edit.addChild parent child
  | addChildren parent children => (fun _ => none) <$> Edit.addChildren parent children
  | setParent child parent => (fun _ => none) <$> Edit.setParent child parent
  | transform id steps => (fun _ => none) <$> Edit.transform id steps
  | transformOne id step => (fun _ => none) <$> Edit.transform id [step]
  | setColor id color => (fun _ => none) <$> Edit.setColor id color
  | compose id operator operands mode => some <$> Edit.compose id operator operands mode
  | union id operands => some <$> Edit.union id operands
  | difference id operands => some <$> Edit.difference id operands
  | intersection id operands => some <$> Edit.intersection id operands
  | copy id isolated => some <$> Edit.copy id isolated

/-- What one command does is a sequence of changes, also when it fails. -/
theorem run_changes {a : Assembly} (h : a.WellFormed) (command : Command) :
    a.Changes (command.run a).assembly := by
  cases command with
  | create draft => exact Edit.map_keeps (Edit.create_changes h draft)
  | add shape => exact Edit.map_keeps (Edit.add_changes a shape)
  | container => exact Edit.map_keeps (Edit.container_changes a)
  | addChild parent child => exact Edit.map_keeps (Edit.addChild_changes h parent child)
  | addChildren parent children =>
      exact Edit.map_keeps (Edit.addChildren_changes h parent children)
  | setParent child parent => exact Edit.map_keeps (Edit.addChild_changes h parent child)
  | transform id steps => exact Edit.map_keeps (Edit.transform_changes a id steps)
  | transformOne id step => exact Edit.map_keeps (Edit.transform_changes a id [step])
  | setColor id color => exact Edit.map_keeps (Edit.setColor_changes a id color)
  | compose id operator operands mode =>
      exact Edit.map_keeps (Edit.compose_changes h id operator operands mode)
  | union id operands => exact Edit.map_keeps (Edit.compose_changes h id .union operands {})
  | difference id operands =>
      exact Edit.map_keeps (Edit.compose_changes h id .difference operands {})
  | intersection id operands =>
      exact Edit.map_keeps (Edit.compose_changes h id .intersection operands {})
  | copy id isolated => exact Edit.map_keeps (Edit.copy_changes h id isolated)

/-- One command keeps an assembly well-formed. -/
theorem run_keeps {a : Assembly} (h : a.WellFormed) (command : Command) :
    (command.run a).assembly.WellFormed :=
  (command.run_changes h).wellFormed h

end Command

namespace Assembly

/-- An assembly that commands make of the one without components. A command that fails is a step as
    well, to what it leaves behind. -/
inductive Reachable : Assembly → Prop
  | empty : Reachable {}
  | step {a : Assembly} (h : Reachable a) (command : Command) : Reachable (command.run a).assembly

/-- No recursion along links is cut off by the depth it is given, and every walk along links comes
    to its end by itself. The definitions carry a depth so that they end also where links go in a
    circle; here no greater depth than theirs gives another answer. -/
structure Uncut (a : Assembly) : Prop where
  /-- From a component down to children and operands there are no more turns than components. -/
  downwards : ∀ id, EndsWithin a.uses (a.size + 1) id
  /-- Nor are there from a component up to its parent, the parent of that, and so on. -/
  upwards : ∀ id, EndsWithin (fun id => (a.parent? id).toList) (a.size + 1) id
  /-- The list of ancestors is complete. -/
  ancestors : ∀ id bound, a.size ≤ bound → a.chain bound (a.parent? id) = a.ancestors id
  /-- The cursor over the transformations of a component ends, and what it has given out by then
      is the history of the component. A cursor that climbed forever would give out no list. -/
  cursor : ∀ id steps, (a.cursor id).Gives a steps ↔ steps = a.history id
  /-- Collecting from that cursor never stops short of what it gives out. -/
  collect : ∀ id bound, a.size ≤ bound → (a.cursor id).collect a bound = a.history id
  /-- A body is built, or a reason found why not, all the way down. -/
  body : ∀ id depth, a.size < depth → a.bodyWithin depth id = a.body id
  /-- Two components are compared all the way down. -/
  structurallyEqual : ∀ x y depth, a.size < depth →
    a.structurallyEqualWithin depth x y = a.structurallyEqual x y
  /-- A component is copied with all that is below it. -/
  copy : ∀ id isolated depth, a.size < depth →
    Edit.copyWithin depth id isolated a = Edit.copy id isolated a

theorem WellFormed.uncut {a : Assembly} (h : a.WellFormed) : a.Uncut where
  downwards := h.usesEnd
  upwards := h.parentsEnd
  ancestors id _ hbound := h.chain_eq hbound id
  cursor := h.gives_iff
  collect id _ hbound := h.collect_eq_history hbound id
  body id _ hdepth := h.bodyWithin_eq hdepth id
  structurallyEqual x y _ hdepth := h.structurallyEqualWithin_eq hdepth x y
  copy id isolated _ hdepth := h.copyWithin_eq hdepth id isolated

namespace Reachable

variable {a : Assembly}

/-- Whatever commands make is well-formed. By induction on the commands, of which each keeps an
    assembly well-formed, also when it fails. -/
theorem wellFormed (h : a.Reachable) : a.WellFormed := by
  induction h with
  | empty => exact WellFormed.empty
  | step _ command ih => exact command.run_keeps ih

/-- In a reachable assembly parents and children agree and a child is listed once, links lead to
    components that exist, nothing is made of itself through children and operands, and so every
    recursion along links ends by itself. The last part is `Uncut`: it holds of walks down to
    children and operands and up to ancestors, of the cursor over transformations, of building and
    comparing bodies and of copying. Nothing is asked of the commands that made the assembly, which
    may have failed and may have been given ids that name nothing. -/
theorem links_sound (h : a.Reachable) :
    (∀ parent child, child ∈ a.children parent ↔ a.parent? child = some parent) ∧
      (∀ parent, (a.children parent).Nodup) ∧
      (∀ id c, a.get? id = some c →
        (∀ parent, c.parent = some parent → a.contains parent = true) ∧
        (∀ child ∈ c.children, a.contains child = true) ∧
        ∀ composition ∈ c.compositions, ∀ operand ∈ composition.operands,
          a.contains operand = true) ∧
      Acyclic a.Uses ∧ a.Uncut := by
  have hwf := h.wellFormed
  refine ⟨hwf.mem_children_iff, hwf.nodup_children, fun id c hc => ⟨?_, ?_, ?_⟩, hwf.acyclic,
    hwf.uncut⟩
  · intro parent hparent
    have hp : a.parent? id = some parent := by rw [parent?_of_get? hc, hparent]
    exact hwf.contains_parent hp
  · intro child hchild
    have huse : a.Uses id child := uses_of_mem_children (by rw [children_of_get? hc]; exact hchild)
    exact hwf.contains_of_uses id child huse
  · intro composition hcomposition operand hoperand
    have huse : a.Uses id operand := by
      rw [Uses, uses_of_get? hc]
      exact Component.mem_uses_of_mem_operands hcomposition hoperand
    exact hwf.contains_of_uses id operand huse

/-- A pair of components, united in a new one and copied with it, with a failure on the way. -/
theorem links_sound_copied :
    let a : Assembly := ⟨#[
      { parent := some ⟨3⟩ },
      { parent := some ⟨3⟩, shape := some (.sphere 2) },
      { children := [⟨1⟩, ⟨2⟩], compositions := [⟨.union, [⟨1⟩, ⟨2⟩]⟩] },
      { children := [⟨5⟩, ⟨6⟩], compositions := [⟨.union, [⟨5⟩, ⟨6⟩]⟩] },
      { parent := some ⟨4⟩ },
      { parent := some ⟨4⟩, shape := some (.sphere 2) }]⟩
    a.Reachable ∧ (⟨6⟩ ∈ a.children ⟨4⟩ ↔ a.parent? ⟨6⟩ = some ⟨4⟩) ∧ (a.children ⟨4⟩).Nodup ∧
      a.contains ⟨5⟩ = true ∧ Acyclic a.Uses ∧ a.Uncut := by
  intro a
  have h : a.Reachable := by
    have h := (Reachable.empty.step .container).step (.add (.sphere 2))
    have hpair := h.step (.compose ⟨2⟩ .union [⟨1⟩] { inPlace := false })
    exact (hpair.step (.addChild ⟨7⟩ ⟨1⟩)).step (.copy ⟨3⟩ false)
  rcases h.links_sound with ⟨hmem, hnodup, hcontains, hrest⟩
  exact ⟨h, hmem ⟨4⟩ ⟨6⟩, hnodup ⟨4⟩, (hcontains ⟨4⟩ _ rfl).2.1 ⟨5⟩ (by decide), hrest⟩

end Reachable

end Assembly

end SolidModel
