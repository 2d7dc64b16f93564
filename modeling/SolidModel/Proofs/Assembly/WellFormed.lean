import SolidModel.Proofs.Assembly.Links

/-!
# Well-Formed Assemblies

What holds of the links of an assembly when nobody has tampered with it.

Parents and children agree, and a child is listed once. Links lead to components that exist. And
nothing is made of itself, through children and operands in any mixture. The last point is the
one that has to be worked for, since a change that looks at one kind of link can close a circle
through the other.

Each of the changes that operations are made of keeps all this under a condition of its own, and
the conditions are as weak as they can be. A component may be linked below a parent that it does
not reach. A composition may be recorded on a component that no operand reaches. A component may
be inserted whatever it uses, since nobody knows it yet.

## Main definitions

* `Assembly.WellFormed`: The invariant.
* `Assembly.MayAdopt`: When a link keeps it.

## Theorems

* `Assembly.WellFormed.insert`, `Assembly.WellFormed.link`, `Assembly.WellFormed.composing`,
  `Assembly.WellFormed.modify`: What keeps it.
* `Assembly.WellFormed.mayAdopt_link`: Several links from one parent do not get in each other's way.
* `Assembly.WellFormed.usesEnd`: Every walk downwards is shorter than the assembly is long.
* `Assembly.WellFormed.parentsEnd`: So is every walk upwards.
-/

namespace SolidModel

open Relation

namespace Assembly

/-- Parents and children agree, links lead somewhere, and nothing is made of itself. -/
structure WellFormed (a : Assembly) : Prop where
  /-- A component is listed among the children of its parent, and nowhere else. -/
  mem_children_iff : ∀ parent child, child ∈ a.children parent ↔ a.parent? child = some parent
  /-- A child is listed once. -/
  nodup_children : ∀ parent, (a.children parent).Nodup
  /-- Children and operands are there. So are parents, since whoever has a parent is a child. -/
  contains_of_uses : ∀ id other, a.Uses id other → a.contains other = true
  /-- No component is made of itself through children and operands. -/
  acyclic : Acyclic a.Uses

/-- A parent may adopt a child that is there, that belongs to nobody else, and that does not get to
    the parent. -/
structure MayAdopt (a : Assembly) (parent child : ComponentId) : Prop where
  /-- The child is there. -/
  known : a.contains child = true
  /-- The child has no parent, or has this one already. -/
  free : a.parent? child = none ∨ a.parent? child = some parent
  /-- The child is not made of the parent, not even indirectly. -/
  apart : ¬ a.Reaches child parent

theorem contains_of_mem_children {a : Assembly} {id child : ComponentId}
    (h : child ∈ a.children id) : a.contains id = true :=
  contains_of_mem_uses (uses_of_mem_children h)

namespace WellFormed

variable {a : Assembly}

theorem contains_parent (h : a.WellFormed) {id parent : ComponentId}
    (hp : a.parent? id = some parent) : a.contains parent = true :=
  contains_of_mem_children ((h.mem_children_iff parent id).mpr hp)

theorem uses_of_parent? (h : a.WellFormed) {id parent : ComponentId}
    (hp : a.parent? id = some parent) : a.Uses parent id :=
  uses_of_mem_children ((h.mem_children_iff parent id).mpr hp)

theorem contains_of_reaches (h : a.WellFormed) {id other : ComponentId}
    (hid : a.contains id = true) (hreach : a.Reaches id other) : a.contains other = true := by
  cases hreach with
  | refl => exact hid
  | tail _ hstep => exact h.contains_of_uses _ _ hstep

/-- Nothing gets to an id that names nothing. -/
theorem not_reaches_of_unknown (h : a.WellFormed) {id other : ComponentId}
    (hid : a.contains id = true) (hother : ¬ a.contains other = true) : ¬ a.Reaches id other :=
  fun hreach => hother (h.contains_of_reaches hid hreach)

theorem not_contains_nextId (a : Assembly) : ¬ a.contains a.nextId = true :=
  fun h => ne_nextId_of_contains h rfl

/-- No id names a component of the assembly without any. -/
theorem not_contains_empty (id : ComponentId) : ¬ ({} : Assembly).contains id = true := by
  rw [contains_iff_number]
  rintro ⟨hpos, hle⟩
  exact absurd hpos (Nat.not_lt_of_le hle)

/-- The assembly without components. -/
theorem empty : ({} : Assembly).WellFormed where
  mem_children_iff parent child := by
    have hget : ({} : Assembly).get? child = none := by
      rcases child with ⟨n⟩
      cases n <;> rfl
    rw [parent?, hget, Option.bind_none]
    exact iff_of_false (fun h => not_contains_empty parent (contains_of_mem_children h))
      (by simp only [reduceCtorEq, not_false_eq_true])
  nodup_children parent := by
    rcases parent with ⟨n⟩
    cases n <;> exact List.nodup_nil
  contains_of_uses id other h := absurd (contains_of_mem_uses h) (not_contains_empty id)
  acyclic id h := by
    rcases TransGen.head'_iff.mp h with ⟨other, hstep, _⟩
    exact not_contains_empty id (contains_of_mem_uses hstep)

/-- A component that only uses what there is may be inserted. Its id is new, so that nothing gets to
    it and no circle can pass through it. -/
theorem insert (h : a.WellFormed) {c : Component} (hparent : c.parent = none)
    (hchildren : c.children = []) (hcomposed : ∀ y ∈ c.composed, a.contains y = true) :
    (a.insert c).WellFormed where
  mem_children_iff parent child := by
    rw [children_insert, parent?_insert, hparent, hchildren]
    by_cases hp : parent = a.nextId
    · rw [if_pos hp]
      by_cases hc : child = a.nextId
      · simp only [hc, if_true, List.not_mem_nil, reduceCtorEq]
      · rw [if_neg hc, hp]
        refine iff_of_false List.not_mem_nil fun hparent' => ?_
        exact not_contains_nextId a (h.contains_parent hparent')
    · rw [if_neg hp]
      by_cases hc : child = a.nextId
      · rw [if_pos hc, hc]
        refine iff_of_false (fun hmem => ?_) (by simp only [reduceCtorEq, not_false_eq_true])
        exact not_contains_nextId a (h.contains_of_uses _ _ (uses_of_mem_children hmem))
      · rw [if_neg hc]
        exact h.mem_children_iff parent child
  nodup_children parent := by
    rw [children_insert]
    split
    · rw [hchildren]
      exact List.nodup_nil
    · exact h.nodup_children parent
  contains_of_uses id other huse := by
    rw [Uses, uses_insert] at huse
    rw [contains_insert_iff]
    split at huse
    · rw [Component.uses, hchildren, List.nil_append] at huse
      exact Or.inl (hcomposed other huse)
    · exact Or.inl (h.contains_of_uses id other huse)
  acyclic := by
    -- All new links leave the new component, and nobody who was there before knows of it.
    refine acyclic_of_source (p := a.nextId) h.acyclic fun id other huse => ?_
    rw [Uses, uses_insert] at huse
    split at huse
    · next heq =>
        rw [Component.uses, hchildren, List.nil_append] at huse
        exact Or.inr ⟨heq, h.not_reaches_of_unknown (hcomposed other huse) (not_contains_nextId a)⟩
    · exact Or.inl huse

/-- What was there gets nowhere new when a component is inserted. -/
theorem reaches_of_insert (h : a.WellFormed) {c : Component} {id other : ComponentId}
    (hid : a.contains id = true) (hreach : (a.insert c).Reaches id other) : a.Reaches id other := by
  refine reflTransGen_of_not_source (p := a.nextId) (fun x y huse => ?_)
    (h.not_reaches_of_unknown hid (not_contains_nextId a)) hreach
  rw [Uses, uses_insert] at huse
  split at huse
  · next heq => exact Or.inr heq
  · exact Or.inl huse

/-- Nobody but its users gets to a new component. -/
theorem not_reaches_nextId_insert (h : a.WellFormed) (c : Component) {id : ComponentId}
    (hid : a.contains id = true) : ¬ (a.insert c).Reaches id a.nextId :=
  fun hreach =>
    h.not_reaches_of_unknown hid (not_contains_nextId a) (h.reaches_of_insert hid hreach)

/-- A component may become the child of a parent that it does not reach, if it has no other. The new
    edge leaves the parent, and a circle would have to come back to the parent from the child. -/
theorem link (h : a.WellFormed) {parent child : ComponentId} (hparent : a.contains parent = true)
    (hchild : a.contains child = true)
    (hfree : a.parent? child = none ∨ a.parent? child = some parent)
    (hreach : ¬ a.Reaches child parent) : (a.link parent child).WellFormed where
  mem_children_iff p c := by
    rw [mem_children_link hparent, parent?_link hchild, h.mem_children_iff]
    by_cases hc : c = child
    · rw [if_pos hc, hc, Option.some.injEq]
      rcases hfree with hnone | hsome
      · rw [hnone]
        simp only [reduceCtorEq, and_true, false_or]
        exact eq_comm
      · rw [hsome, Option.some.injEq]
        exact ⟨fun hor => hor.elim id fun heq => heq.1.symm, Or.inl⟩
    · simp only [hc, and_false, or_false, if_false]
  nodup_children p := nodup_children_link (h.nodup_children p) parent child
  contains_of_uses id other huse := by
    rw [contains_link]
    rcases (uses_link hparent id other).mp huse with hold | ⟨_, rfl⟩
    · exact h.contains_of_uses id other hold
    · exact hchild
  acyclic := by
    -- The only new link leaves the parent, and the child does not get there.
    refine acyclic_of_source (p := parent) h.acyclic fun id other huse => ?_
    rcases (uses_link hparent id other).mp huse with hold | ⟨rfl, rfl⟩
    · exact Or.inl hold
    · exact Or.inr ⟨rfl, hreach⟩

/-- A parentage does not help anybody to get to the parent. -/
theorem not_reaches_link (_ : a.WellFormed) {parent child id : ComponentId}
    (hparent : a.contains parent = true) (hreach : ¬ a.Reaches id parent) :
    ¬ (a.link parent child).Reaches id parent := by
  intro hnew
  refine hreach (reflTransGen_of_source (fun x y huse => ?_) hnew)
  exact ((uses_link hparent x y).mp huse).imp_right And.left

/-- Of several components that may become children of one parent, one may be linked first. The
    others may still be linked afterwards: the new edge leaves the parent, which they do not get
    to. -/
theorem mayAdopt_link (h : a.WellFormed) {parent child other : ComponentId}
    (hparent : a.contains parent = true) (hchild : a.MayAdopt parent child)
    (hother : a.MayAdopt parent other) : (a.link parent child).MayAdopt parent other where
  known := by
    rw [contains_link]
    exact hother.known
  free := by
    rw [parent?_link hchild.known]
    split
    · exact Or.inr rfl
    · exact hother.free
  apart := h.not_reaches_link hparent hother.apart

/-- A component may record a composition of components that do not reach it. The new edges all leave
    that component, and none of them comes back. -/
theorem composing (h : a.WellFormed) {id : ComponentId} (hid : a.contains id = true)
    {composition : Composition} (hknown : ∀ y ∈ composition.operands, a.contains y = true)
    (hreach : ∀ y ∈ composition.operands, ¬ a.Reaches y id) :
    (a.modify id fun c => c.composing composition).WellFormed where
  mem_children_iff parent child := by
    rw [children_composing, parent?_composing]
    exact h.mem_children_iff parent child
  nodup_children parent := by
    rw [children_composing]
    exact h.nodup_children parent
  contains_of_uses x y huse := by
    rw [contains_modify]
    rcases (uses_composing hid composition x y).mp huse with hold | ⟨_, hy⟩
    · exact h.contains_of_uses x y hold
    · exact hknown y hy
  acyclic := by
    refine acyclic_of_source (p := id) h.acyclic fun x y huse => ?_
    rcases (uses_composing hid composition x y).mp huse with hold | ⟨hx, hy⟩
    · exact Or.inl hold
    · exact Or.inr ⟨hx, hreach y hy⟩

/-- What concerns no link may be changed. -/
theorem modify (h : a.WellFormed) (id : ComponentId) {change : Component → Component}
    (hchange : Component.KeepsLinks change) : (a.modify id change).WellFormed := by
  have hviews := views_modify hchange a id
  have huses : (a.modify id change).Uses = a.Uses := by
    funext x y
    rw [Uses, (hviews x).2.2, Uses]
  exact {
    mem_children_iff := fun parent child => by
      rw [(hviews parent).2.1, (hviews child).1]
      exact h.mem_children_iff parent child
    nodup_children := fun parent => by
      rw [(hviews parent).2.1]
      exact h.nodup_children parent
    contains_of_uses := fun x y huse => by
      rw [contains_modify]
      exact h.contains_of_uses x y (huses ▸ huse)
    acyclic := huses ▸ h.acyclic }

theorem length_ids (a : Assembly) : a.ids.length = a.size := by
  rw [ids, List.length_map, List.length_range]

/-- Every walk downwards is shorter than the assembly is long. -/
theorem usesEnd (h : a.WellFormed) (id : ComponentId) : EndsWithin a.uses (a.size + 1) id := by
  rw [← length_ids]
  exact endsWithin_of_acyclic
    (fun x y hy => (a.contains_iff x).mp (contains_of_mem_uses hy)) h.acyclic id

/-- Every walk upwards is shorter than the assembly is long. -/
theorem parentsEnd (h : a.WellFormed) (id : ComponentId) :
    EndsWithin (fun id => (a.parent? id).toList) (a.size + 1) id := by
  rw [← length_ids]
  refine endsWithin_of_acyclic (fun x y hy => ?_) (fun x hx => ?_) id
  · have hp := Option.mem_toList.mp hy
    exact (a.contains_iff x).mp (h.contains_of_uses y x (h.uses_of_parent? hp))
  · -- Upwards is against the direction of use.
    have hdown : TransGen (Function.swap a.Uses) x x := by
      refine TransGen.mono (fun child parent hp => ?_) x x hx
      exact h.uses_of_parent? (Option.mem_toList.mp hp)
    exact h.acyclic x (transGen_swap.mp hdown)

end WellFormed

end Assembly

end SolidModel
