import SolidModel.Assembly.Adopt
import SolidModel.Proofs.Walk

/-!
# Links Between Components

What an assembly looks like to somebody who follows its links, and what a change does to that.

There are three views of the table: who uses whom, who is a child of whom, and who is the parent
of whom. A step downwards is `Assembly.Uses`, which does not tell children from operands, and a
walk downwards is `Assembly.Reaches`.

Every change that an operation makes is one of a few: a further component, a parentage recorded
on both sides, a further composition, or a change that concerns no link. For each of them the
three views after it are told from the three views before it, and nothing later has to look into
the table again.

## Main definitions

* `Assembly.children`: The children of a component.
* `Assembly.Uses`, `Assembly.Reaches`: A step downwards, and a walk.

## Theorems

* `Assembly.get?_link`: A parentage concerns the two components it is about.
* `Assembly.parent?_link`, `Assembly.mem_children_link`, `Assembly.uses_link`: What becomes of the
  three views under it.
-/

namespace SolidModel

open Relation

namespace Component

theorem parent_adopting (c : Component) (child : ComponentId) :
    (c.adopting child).parent = c.parent := by
  unfold Component.adopting
  split <;> rfl

theorem mem_children_adopting {c : Component} {child other : ComponentId} :
    other ∈ (c.adopting child).children ↔ other ∈ c.children ∨ other = child := by
  unfold Component.adopting
  split
  · next h => exact ⟨Or.inl, fun hor => hor.elim id fun heq => heq ▸ h⟩
  · simp only [List.mem_append, List.mem_singleton]

theorem nodup_children_adopting {c : Component} {child : ComponentId}
    (h : c.children.Nodup) : (c.adopting child).children.Nodup := by
  unfold Component.adopting
  split
  · exact h
  · next hnot =>
      exact List.Nodup.append h (List.nodup_singleton child) (List.disjoint_singleton.mpr hnot)

theorem composed_adopting (c : Component) (child : ComponentId) :
    (c.adopting child).composed = c.composed := by
  unfold Component.adopting
  split <;> rfl

/-- A change that concerns no link. -/
structure KeepsLinks (change : Component → Component) : Prop where
  /-- The parent is left as it is. -/
  parent : ∀ c, (change c).parent = c.parent
  /-- The children are left as they are. -/
  children : ∀ c, (change c).children = c.children
  /-- The compositions are left as they are. -/
  compositions : ∀ c, (change c).compositions = c.compositions

theorem keepsLinks_moving (steps : List Transformation) :
    KeepsLinks fun c => c.moving steps :=
  ⟨fun _ => rfl, fun _ => rfl, fun _ => rfl⟩

end Component

namespace Assembly

/-- The children of a component, in the order of their adoption. -/
def children (a : Assembly) (id : ComponentId) : List ComponentId :=
  match a.get? id with
  | none => []
  | some c => c.children

/-- A component is made of another as a child or as an operand. -/
def Uses (a : Assembly) (id other : ComponentId) : Prop := other ∈ a.uses id

/-- A component is another one or is made of it, through any number of steps. -/
def Reaches (a : Assembly) : ComponentId → ComponentId → Prop := ReflTransGen a.Uses

/-- Who uses nothing gets nowhere. -/
theorem not_reaches_of_uses_eq_nil {a : Assembly} {id other : ComponentId} (h : a.uses id = [])
    (hne : id ≠ other) : ¬ a.Reaches id other := by
  intro hreach
  rcases ReflTransGen.cases_head hreach with heq | ⟨_, hstep, _⟩
  · exact hne heq
  · rw [Uses, h] at hstep
    exact absurd hstep List.not_mem_nil

theorem children_of_get? {a : Assembly} {id : ComponentId} {c : Component}
    (h : a.get? id = some c) : a.children id = c.children := by
  simp only [children, h]

theorem uses_of_get? {a : Assembly} {id : ComponentId} {c : Component}
    (h : a.get? id = some c) : a.uses id = c.uses := by
  simp only [uses, h]

theorem parent?_of_get? {a : Assembly} {id : ComponentId} {c : Component}
    (h : a.get? id = some c) : a.parent? id = c.parent := by
  simp only [parent?, h, Option.bind_some]

/-- What an id means is all that the views depend on. -/
theorem uses_congr {a b : Assembly} {id : ComponentId} (h : b.get? id = a.get? id) :
    b.uses id = a.uses id := by
  simp only [uses, h]

theorem parent?_congr {a b : Assembly} {id : ComponentId} (h : b.get? id = a.get? id) :
    b.parent? id = a.parent? id := by
  simp only [parent?, h]

theorem contains_of_get? {a : Assembly} {id : ComponentId} {c : Component}
    (h : a.get? id = some c) : a.contains id = true := by
  rw [contains, h, Option.isSome_some]

theorem get?_of_contains {a : Assembly} {id : ComponentId} (h : a.contains id = true) :
    ∃ c, a.get? id = some c := Option.isSome_iff_exists.mp h

theorem contains_congr {a b : Assembly} {id : ComponentId} (h : b.get? id = a.get? id) :
    b.contains id = a.contains id := by
  rw [contains, contains, h]

/-- An id names a component if it lies between one and their number. -/
theorem contains_iff_number {a : Assembly} {id : ComponentId} :
    a.contains id = true ↔ 0 < id.number ∧ id.number ≤ a.size := by
  rw [contains_iff, ids, List.mem_map]
  constructor
  · rintro ⟨n, hn, rfl⟩
    rw [List.mem_range] at hn
    exact ⟨Nat.succ_pos n, hn⟩
  · rintro ⟨hpos, hle⟩
    refine ⟨id.number - 1, List.mem_range.mpr (by omega), ?_⟩
    rcases id with ⟨n⟩
    simp only [ComponentId.mk.injEq]
    exact Nat.succ_pred_eq_of_pos hpos

/-- What contains as much is as large. -/
theorem size_le_of_contains {a b : Assembly}
    (h : ∀ id, a.contains id = true → b.contains id = true) : a.size ≤ b.size := by
  by_cases hzero : a.size = 0
  · omega
  · have hlast : a.contains ⟨a.size⟩ = true :=
      contains_iff_number.mpr ⟨Nat.pos_of_ne_zero hzero, Nat.le_refl _⟩
    exact (contains_iff_number.mp (h _ hlast)).2

theorem contains_of_mem_uses {a : Assembly} {id other : ComponentId} (h : a.Uses id other) :
    a.contains id = true := by
  rcases a.uses_eq_nil_or_mem id with hnil | hmem
  · rw [Uses, hnil] at h
    exact absurd h List.not_mem_nil
  · exact (a.contains_iff id).mpr hmem

theorem uses_of_mem_children {a : Assembly} {id child : ComponentId}
    (h : child ∈ a.children id) : a.Uses id child := by
  unfold children at h
  split at h
  · exact absurd h List.not_mem_nil
  · next c hc =>
      rw [Uses, uses_of_get? hc]
      exact List.mem_append_left _ h

/-- A component may be changed in whatever concerns no link. -/
theorem get?_modify_self {a : Assembly} {id : ComponentId} {c : Component}
    (change : Component → Component) (h : a.get? id = some c) :
    (a.modify id change).get? id = some (change c) := by
  rw [get?_modify, if_pos rfl, h, Option.map_some]

theorem get?_modify_of_ne {a : Assembly} {id other : ComponentId} (change : Component → Component)
    (h : other ≠ id) : (a.modify id change).get? other = a.get? other := by
  rw [get?_modify, if_neg h]

@[simp] theorem contains_modify (a : Assembly) (id other : ComponentId)
    (change : Component → Component) :
    (a.modify id change).contains other = a.contains other := by
  by_cases h : other = id
  · rw [h, contains, contains, get?_modify, if_pos rfl, Option.isSome_map]
  · exact contains_congr (get?_modify_of_ne change h)

/-- The next id is still free. -/
theorem get?_nextId (a : Assembly) : a.get? a.nextId = none := by
  have h : ¬ a.contains a.nextId = true := by
    rw [contains_iff_number]
    exact fun h => Nat.not_succ_le_self a.size h.2
  simpa only [contains, Option.isSome_iff_ne_none, ne_eq, not_not] using h

theorem ne_nextId_of_contains {a : Assembly} {id : ComponentId} (h : a.contains id = true) :
    id ≠ a.nextId := by
  rintro rfl
  rw [contains, get?_nextId] at h
  exact Bool.false_ne_true h

theorem get?_insert_nextId (a : Assembly) (c : Component) :
    (a.insert c).get? a.nextId = some c := by
  rw [get?_insert, if_pos rfl]

theorem get?_insert_of_contains {a : Assembly} {id : ComponentId} (c : Component)
    (h : a.contains id = true) : (a.insert c).get? id = a.get? id := by
  rw [get?_insert, if_neg (ne_nextId_of_contains h)]

theorem contains_insert_iff {a : Assembly} {c : Component} {id : ComponentId} :
    (a.insert c).contains id = true ↔ a.contains id = true ∨ id = a.nextId := by
  rw [contains, get?_insert]
  by_cases h : id = a.nextId
  · rw [if_pos h, h, Option.isSome_some]
    exact ⟨fun _ => Or.inr rfl, fun _ => rfl⟩
  · rw [if_neg h]
    exact ⟨Or.inl, fun hor => hor.resolve_right h⟩

/-- A parentage concerns the two components it is about. -/
theorem get?_link (a : Assembly) (parent child id : ComponentId) :
    (a.link parent child).get? id = (a.get? id).map fun c =>
      let c := if id = child then { c with parent := some parent } else c
      if id = parent then c.adopting child else c := by
  rw [link, get?_modify, get?_modify, get?_modify]
  by_cases hp : id = parent
  · by_cases hc : parent = child
    · simp only [hp, hc, if_true, Option.map_map]
      rfl
    · simp only [hp, hc, if_true, if_false]
  · by_cases hc : id = child
    · have hne : child ≠ parent := hc ▸ hp
      simp only [hc, hne, if_true, if_false]
    · simp only [hp, hc, if_false, Option.map_id']

@[simp] theorem contains_link (a : Assembly) (parent child id : ComponentId) :
    (a.link parent child).contains id = a.contains id := by
  rw [link, contains_modify, contains_modify]

theorem get?_link_of_ne {a : Assembly} {parent child id : ComponentId} (hp : id ≠ parent)
    (hc : id ≠ child) : (a.link parent child).get? id = a.get? id := by
  simp only [get?_link, hp, hc, if_false, Option.map_id']

/-- The child has the parent, and nobody else has another parent than before. -/
theorem parent?_link {a : Assembly} {parent child : ComponentId}
    (hchild : a.contains child = true) (id : ComponentId) :
    (a.link parent child).parent? id = if id = child then some parent else a.parent? id := by
  rw [parent?, get?_link, parent?]
  by_cases hc : id = child
  · rcases get?_of_contains hchild with ⟨c, h⟩
    simp only [hc, h, Option.map_some, Option.bind_some, if_true]
    split
    · exact Component.parent_adopting _ _
    · rfl
  · simp only [hc, if_false]
    cases a.get? id with
    | none => rfl
    | some c =>
        simp only [Option.map_some, Option.bind_some]
        split
        · exact Component.parent_adopting _ _
        · rfl

/-- The parent has the child, and nobody else has another child than before. -/
theorem mem_children_link {a : Assembly} {parent child : ComponentId}
    (hparent : a.contains parent = true) (id other : ComponentId) :
    other ∈ (a.link parent child).children id ↔
      other ∈ a.children id ∨ id = parent ∧ other = child := by
  rw [children, get?_link, children]
  by_cases hp : id = parent
  · rcases get?_of_contains hparent with ⟨c, h⟩
    simp only [hp, h, Option.map_some, if_true, Component.mem_children_adopting]
    split <;> simp only [true_and]
  · simp only [hp, if_false, false_and, or_false]
    cases a.get? id with
    | none => rfl
    | some c =>
        simp only [Option.map_some]
        split <;> rfl

theorem nodup_children_link {a : Assembly} {id : ComponentId} (h : (a.children id).Nodup)
    (parent child : ComponentId) : ((a.link parent child).children id).Nodup := by
  rw [children, get?_link]
  rw [children] at h
  cases hid : a.get? id with
  | none => exact List.nodup_nil
  | some c =>
      rw [hid] at h
      simp only [Option.map_some]
      split
      · split <;> exact Component.nodup_children_adopting h
      · split <;> exact h

/-- The parent uses the child, and nothing else is used that was not used before. -/
theorem uses_link {a : Assembly} {parent child : ComponentId}
    (hparent : a.contains parent = true) (id other : ComponentId) :
    (a.link parent child).Uses id other ↔ a.Uses id other ∨ id = parent ∧ other = child := by
  rw [Uses, Uses, uses, get?_link, uses]
  by_cases hp : id = parent
  · rcases get?_of_contains hparent with ⟨c, h⟩
    simp only [hp, h, Option.map_some, if_true, Component.uses, List.mem_append,
      Component.mem_children_adopting, Component.composed_adopting]
    split <;> simp only [true_and] <;> exact or_right_comm
  · simp only [hp, if_false, false_and, or_false]
    cases a.get? id with
    | none => rfl
    | some c =>
        simp only [Option.map_some]
        split <;> rfl

/-- A further composition is about nobody's parentage. -/
theorem parent?_composing (a : Assembly) (id : ComponentId) (composition : Composition)
    (other : ComponentId) :
    (a.modify id fun c => c.composing composition).parent? other = a.parent? other := by
  rw [parent?, get?_modify, parent?]
  by_cases h : other = id
  · simp only [h, if_true]
    cases a.get? id <;> rfl
  · simp only [h, if_false]

theorem children_composing (a : Assembly) (id : ComponentId) (composition : Composition)
    (other : ComponentId) :
    (a.modify id fun c => c.composing composition).children other = a.children other := by
  rw [children, get?_modify, children]
  by_cases h : other = id
  · simp only [h, if_true]
    cases a.get? id <;> rfl
  · simp only [h, if_false]

/-- The component uses the operands, and nothing else is used that was not used before. -/
theorem uses_composing {a : Assembly} {id : ComponentId} (hid : a.contains id = true)
    (composition : Composition) (x y : ComponentId) :
    (a.modify id fun c => c.composing composition).Uses x y ↔
      a.Uses x y ∨ x = id ∧ y ∈ composition.operands := by
  rw [Uses, Uses, uses, get?_modify, uses]
  by_cases h : x = id
  · rcases get?_of_contains hid with ⟨c, hc⟩
    simp only [h, hc, Option.map_some, if_true, Component.uses, Component.composed,
      Component.composing, List.flatMap_append, List.flatMap_singleton, List.mem_append, true_and,
      or_assoc]
  · simp only [h, if_false, false_and, or_false]

/-- Such a change leaves all three views as they were. -/
theorem views_modify {change : Component → Component} (h : Component.KeepsLinks change)
    (a : Assembly) (id other : ComponentId) :
    (a.modify id change).parent? other = a.parent? other ∧
      (a.modify id change).children other = a.children other ∧
      (a.modify id change).uses other = a.uses other := by
  simp only [parent?, children, uses, get?_modify]
  by_cases hid : other = id
  · simp only [hid, if_true]
    cases a.get? id with
    | none => exact ⟨rfl, rfl, rfl⟩
    | some c =>
        simp only [Option.map_some, Option.bind_some, Component.uses, Component.composed, h.parent,
          h.children, h.compositions, and_self]
  · simp only [hid, if_false, and_self]

/-- A new component is in nobody's list and has what it was made with. -/
theorem parent?_insert (a : Assembly) (c : Component) (id : ComponentId) :
    (a.insert c).parent? id = if id = a.nextId then c.parent else a.parent? id := by
  rw [parent?, get?_insert]
  split <;> rfl

theorem children_insert (a : Assembly) (c : Component) (id : ComponentId) :
    (a.insert c).children id = if id = a.nextId then c.children else a.children id := by
  rw [children, get?_insert]
  by_cases h : id = a.nextId
  · simp only [h, if_true]
  · simp only [h, if_false, children]

theorem uses_insert (a : Assembly) (c : Component) (id : ComponentId) :
    (a.insert c).uses id = if id = a.nextId then c.uses else a.uses id := by
  rw [uses, get?_insert]
  by_cases h : id = a.nextId
  · simp only [h, if_true]
  · simp only [h, if_false, uses]

end Assembly

end SolidModel
