import SolidModel.Proofs.Assembly.Checks
import SolidModel.Proofs.Assembly.Copying

/-!
# Changes

What operations are made of.

An operation asks, and then it changes something. However it goes about it, there are only a few
changes that it can be made of, and each of them comes with a condition that has been made sure of
by then. So what is to be said about all operations in any order needs to be said about these
changes alone, and about none of the questions.

Two of the changes are copies as wholes. That something is copied in isolation means that the
assembly grows and nothing that was there has anything to do with it. A plain copy concerns what was
there in one point only, since it joins the parent of its source.

## Main definitions

* `Assembly.PlainCopy`: A component has been copied plainly.
* `Assembly.Change`: One change.
* `Assembly.Changes`: Any number of changes.

## Theorems

* `Assembly.Change.wellFormed`: A change keeps an assembly well-formed.
* `Assembly.Changes.wellFormed`: So does any number of them.
* `Assembly.changes_linkAll`: Several children may be linked if each of them may.
-/

namespace SolidModel

open Relation

namespace Assembly

/-- A component has been copied plainly. -/
structure PlainCopy (a b : Assembly) (id : ComponentId) (s c : Component) : Prop where
  /-- The assembly was well-formed before. -/
  before : a.WellFormed
  /-- The assembly is well-formed now. -/
  after : b.WellFormed
  /-- What has been copied. -/
  source : a.get? id = some s
  /-- Since the copy was put where the source is, nothing has changed but the copy, and what has
      been made for it leads only to what is newer. -/
  grown : (Edit.joined a s).Extends b (some a.nextId)
  /-- What the copy has become. -/
  copy : b.get? a.nextId = some c
  /-- The copy belongs to whoever owns the source. -/
  parent : c.parent = s.parent
  /-- The children of the copy are duplicates, made after it and owned by it. Operands that are no
      children are shared. -/
  mirrors : Component.Mirrors
    (fun x y => a.nextId.number < y.number ∧ a.Duplicate b a.size (some a.nextId) x y)
    (fun x y => y = x) s c

/-- One change, and what makes it possible. -/
inductive Change (a : Assembly) : Assembly → Prop
  /-- A component comes into being that nobody owns and that owns nothing. -/
  | insert {c : Component} (hparent : c.parent = none) (hchildren : c.children = [])
      (hcomposed : ∀ y ∈ c.composed, a.contains y = true) : Change a (a.insert c)
  /-- A parentage is recorded on both sides. -/
  | link {parent child : ComponentId} (hparent : a.contains parent = true)
      (hchild : a.MayAdopt parent child) : Change a (a.link parent child)
  /-- A composition is recorded. -/
  | record {id : ComponentId} {composition : Composition} (hid : a.contains id = true)
      (hknown : ∀ y ∈ composition.operands, a.contains y = true)
      (hreach : ∀ y ∈ composition.operands, ¬ a.Reaches y id) :
      Change a (a.modify id fun c => c.composing composition)
  /-- A component is moved. -/
  | move (id : ComponentId) (steps : List Transformation) :
      Change a (a.modify id fun c => c.moving steps)
  /-- A component gets another color, or none. -/
  | paint (id : ComponentId) (color : Option Color) :
      Change a (a.modify id fun c => { c with color })
  /-- Something is copied in isolation. -/
  | isolatedCopies {b : Assembly} (hgrown : a.Extends b none) (hb : b.WellFormed) : Change a b
  /-- A component is copied plainly. -/
  | plainCopy {b : Assembly} {id : ComponentId} {s c : Component} (hcopy : a.PlainCopy b id s c) :
      Change a b

/-- Any number of changes, one after another. -/
def Changes : Assembly → Assembly → Prop := ReflTransGen Change

variable {a b c : Assembly}

/-- A change keeps an assembly well-formed. -/
theorem Change.wellFormed (hchange : a.Change b) (h : a.WellFormed) : b.WellFormed := by
  cases hchange with
  | insert hparent hchildren hcomposed => exact h.insert hparent hchildren hcomposed
  | link hparent hchild => exact h.link hparent hchild.known hchild.free hchild.apart
  | record hid hknown hreach => exact h.composing hid hknown hreach
  | move id steps => exact h.modify id (Component.keepsLinks_moving steps)
  | paint id color => exact h.modify id ⟨fun _ => rfl, fun _ => rfl, fun _ => rfl⟩
  | isolatedCopies _ hb => exact hb
  | plainCopy hcopy => exact hcopy.after

namespace Changes

theorem refl (a : Assembly) : a.Changes a := ReflTransGen.refl

theorem single (h : a.Change b) : a.Changes b := ReflTransGen.single h

theorem trans (h : a.Changes b) (h' : b.Changes c) : a.Changes c := ReflTransGen.trans h h'

/-- Any number of changes keeps an assembly well-formed. -/
theorem wellFormed (hchanges : a.Changes b) (h : a.WellFormed) : b.WellFormed := by
  induction hchanges with
  | refl => exact h
  | tail _ hlast ih => exact hlast.wellFormed ih

end Changes

/-- Several components may become children of one parent if each of them may. That each may is asked
    before any of them is linked, and it stays true of the rest while they are linked one after
    another: a child more of the parent is no way from another child back to it. -/
theorem changes_linkAll (h : a.WellFormed) {parent : ComponentId}
    (hparent : a.contains parent = true) {children : List ComponentId}
    (hall : ∀ child ∈ children, a.MayAdopt parent child) :
    a.Changes (a.linkAll parent children) := by
  induction children generalizing a with
  | nil => exact Changes.refl a
  | cons child rest ih =>
      have hchild := hall child List.mem_cons_self
      have hlink : a.Change (a.link parent child) := Change.link hparent hchild
      rw [linkAll, List.foldl_cons]
      refine (Changes.single hlink).trans (ih (hlink.wellFormed h) ?_ fun other hother => ?_)
      · rw [contains_link]
        exact hparent
      · exact h.mayAdopt_link hparent hchild (hall other (List.mem_cons_of_mem _ hother))

end Assembly

end SolidModel
