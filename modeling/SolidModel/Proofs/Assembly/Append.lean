import SolidModel.Proofs.Assembly.Lineage

/-!
# Appended Components

An assembly followed by a list of components.

What a sequence of insertions has made stands at the end of the table, and is best told as a list.
The ids of the new components are then positions in the list, and an operation that concerns one of
them is an operation on the list. What stood in the table before is not concerned.

The new components may be linked to each other in whatever way. As long as they are linked to
nothing else, there is no way from them to anything that was there. And as long as nobody has moved
them, their anchors are where their shapes have them.

## Main definitions

* `Assembly.append`: The assembly with further components.
* `Assembly.nth`: The id of one of them.

## Theorems

* `Assembly.get?_append_nth`, `Assembly.get?_append_of_contains`: What the ids mean.
* `Assembly.modify_append_nth`, `Assembly.link_append_nth`: Changes are changes of the list.
* `Assembly.not_reaches_of_append`: From new components one gets to no old ones.
* `Assembly.anchor_append_of_still`: The anchors of what has not been moved.
* `Edit.insert_append_yields`, `Edit.transform_yields`, `Edit.create_yields`: The operations that
  append.
-/

namespace SolidModel

open Relation

namespace Assembly

/-- The assembly with further components, in order. -/
def append (a : Assembly) (cs : List Component) : Assembly := ⟨a.components ++ cs.toArray⟩

/-- The id that the further component at a position has. -/
def nth (a : Assembly) (k : Nat) : ComponentId := ⟨a.size + k + 1⟩

variable {a : Assembly} {cs : List Component}

theorem append_append (a : Assembly) (cs ds : List Component) :
    (a.append cs).append ds = a.append (cs ++ ds) := by
  unfold append
  rw [← List.append_toArray, Array.append_assoc]

theorem size_append (a : Assembly) (cs : List Component) :
    (a.append cs).size = a.size + cs.length := by
  rw [append, size, Array.size_append, List.size_toArray]
  rfl

/-- Whoever appends something does not leave things as they were. -/
theorem append_ne (h : cs ≠ []) : a.append cs ≠ a := by
  intro heq
  have hsize := size_append a cs
  have hpos := List.length_pos_iff.mpr h
  rw [heq] at hsize
  omega

theorem insert_append (a : Assembly) (cs : List Component) (c : Component) :
    (a.append cs).insert c = a.append (cs ++ [c]) := by
  unfold insert append
  rw [← List.append_toArray, ← Array.append_assoc]
  rfl

theorem nextId_append (a : Assembly) (cs : List Component) :
    (a.append cs).nextId = a.nth cs.length := by
  rw [nextId, nth, size_append]

/-- The further component at a position is the one of the list. -/
theorem get?_append_nth (a : Assembly) (cs : List Component) (k : Nat) :
    (a.append cs).get? (a.nth k) = cs[k]? := by
  have h : (a.append cs).get? (a.nth k) =
      (a.components ++ cs.toArray)[a.components.size + k]? := rfl
  rw [h, Array.getElem?_append_right (Nat.le_add_right _ _), Nat.add_sub_cancel_left,
    List.getElem?_toArray]

/-- What was there is what it was. -/
theorem get?_append_of_contains {id : ComponentId} (h : a.contains id = true)
    (cs : List Component) :
    (a.append cs).get? id = a.get? id := by
  rcases id with ⟨n⟩
  have hn := contains_iff_number.mp h
  cases n with
  | zero => rfl
  | succ n => exact Array.getElem?_append_left hn.2

/-- An id names something old, or a further component, or nothing. -/
theorem contains_append {id : ComponentId} (h : (a.append cs).contains id = true) :
    a.contains id = true ∨ ∃ k, k < cs.length ∧ id = a.nth k := by
  rw [contains_iff_number, size_append] at h
  by_cases hold : id.number ≤ a.size
  · exact Or.inl (contains_iff_number.mpr ⟨h.1, hold⟩)
  · refine Or.inr ⟨id.number - a.size - 1, by omega, ?_⟩
    rcases id with ⟨n⟩
    simp only [nth, ComponentId.mk.injEq] at h hold ⊢
    omega

theorem contains_append_nth {k : Nat} (h : k < cs.length) :
    (a.append cs).contains (a.nth k) = true := by
  rw [contains, get?_append_nth, List.getElem?_eq_getElem h, Option.isSome_some]

theorem not_contains_nth (a : Assembly) (k : Nat) : ¬ a.contains (a.nth k) = true := by
  rw [contains_iff_number]
  exact fun h => absurd h.2 (by simp only [nth]; omega)

/-- A change to a further component is a change of the list. -/
theorem modify_append_nth (a : Assembly) (cs : List Component) (k : Nat)
    (change : Component → Component) :
    (a.append cs).modify (a.nth k) change = a.append (cs.modify k change) := by
  have hold : (a.append cs).modify (a.nth k) change =
      ⟨(a.components ++ cs.toArray).modify (a.components.size + k) change⟩ := rfl
  have hlist : (a.components ++ cs.toArray).modify (a.components.size + k) change =
      a.components ++ (cs.modify k change).toArray := by
    refine Array.ext_getElem? fun i => ?_
    rw [Array.getElem?_modify]
    by_cases hi : i < a.components.size
    · rw [if_neg (by omega), Array.getElem?_append_left hi, Array.getElem?_append_left hi]
    · rw [Array.getElem?_append_right (by omega), Array.getElem?_append_right (by omega),
        List.getElem?_toArray, List.getElem?_toArray, List.getElem?_modify, Option.map_eq_map]
      by_cases hk : a.components.size + k = i
      · rw [if_pos hk, ← hk, Nat.add_sub_cancel_left]
        simp only [if_true]
      · have hk' : ¬ k = i - a.components.size := by omega
        simp only [hk, hk', if_false, Option.map_id']
  rw [hold, hlist]
  rfl

/-- A change to something old does not concern the list. -/
theorem modify_append_of_contains {id : ComponentId} (h : a.contains id = true)
    (cs : List Component) (change : Component → Component) :
    (a.append cs).modify id change = (a.modify id change).append cs := by
  rcases id with ⟨n⟩
  have hn := contains_iff_number.mp h
  cases n with
  | zero => rfl
  | succ n =>
      -- The place of something old is before the end of the list that is appended to.
      have hlist : (a.components ++ cs.toArray).modify n change =
          a.components.modify n change ++ cs.toArray := by
        refine Array.ext_getElem? fun i => ?_
        rw [Array.getElem?_modify]
        by_cases hi : i < a.components.size
        · rw [Array.getElem?_append_left hi, Array.getElem?_append_left (by simpa using hi),
            Array.getElem?_modify]
        · have hne : ¬ n = i := by
            have hsize : n < a.components.size := hn.2
            omega
          rw [if_neg hne, Array.getElem?_append_right (by omega),
            Array.getElem?_append_right (by simpa using Nat.le_of_not_lt hi), Array.size_modify]
      exact congrArg Assembly.mk hlist

/-- A parentage between further components is recorded in the list: the one gets a parent and the
    other a child, and nothing that was there before takes part in it. -/
theorem link_append_nth (a : Assembly) (cs : List Component) (j k : Nat) :
    (a.append cs).link (a.nth j) (a.nth k) = a.append
      ((cs.modify k fun c => { c with parent := some (a.nth j) }).modify j
        fun c => c.adopting (a.nth k)) := by
  rw [link, modify_append_nth, modify_append_nth]

/-- If further components are made of nothing old, there is no way from them to what is old. -/
theorem not_reaches_of_append (h : ∀ c ∈ cs, ∀ other ∈ c.uses, ¬ a.contains other = true)
    {id old : ComponentId} (hid : ¬ a.contains id = true) (hold : a.contains old = true) :
    ¬ (a.append cs).Reaches id old := by
  intro hreach
  have hnew : ¬ a.contains old = true := by
    clear hold
    induction hreach with
    | refl => exact hid
    | tail _ hstep ih =>
        next between other _ =>
        rcases contains_append (contains_of_mem_uses hstep) with hbetween | ⟨k, hk, rfl⟩
        · exact absurd hbetween ih
        · have hget := get?_append_nth a cs k
          rw [List.getElem?_eq_getElem hk] at hget
          rw [Uses, uses_of_get? hget] at hstep
          exact h _ (List.getElem_mem hk) other hstep
  exact hnew hold

theorem ancestors_of_root {id : ComponentId} (h : a.parent? id = none) : a.ancestors id = [] := by
  rw [ancestors, h, chain_none]

theorem ancestors_below_root {id parent : ComponentId} (h : a.parent? id = some parent)
    (hroot : a.parent? parent = none) (hsize : 0 < a.size) : a.ancestors id = [parent] := by
  obtain ⟨n, hn⟩ : ∃ n, a.size = n + 1 := ⟨a.size - 1, by omega⟩
  rw [ancestors, h, hn, chain, hroot, chain_none]

/-- Where nothing has been moved, an anchor is where its shape has it. -/
theorem anchor_of_still [Trigonometry] {id : ComponentId} {c : Component} {shape : Shape}
    {anchor : Anchor} {seat : Connector} (hget : a.get? id = some c) (hshape : c.shape = some shape)
    (hseat : shape.anchor anchor = .ok (some seat))
    (hstill : ∀ other ∈ id :: a.ancestors id, a.direct other = []) :
    a.anchor id anchor = .ok seat := by
  have hhistory : a.history id = [] := List.flatMap_eq_nil_iff.mpr hstill
  unfold Assembly.anchor
  rw [find_eq_ok_iff.mpr hget, Except.ok_bind]
  simp only [hshape, hseat]
  change (a.carry id seat).mapError _ = _
  rw [carry, hhistory]
  rfl

/-- A component that nobody has moved has its anchors where its shape has them. It has to have no
    parent as well, since it would move with it. -/
theorem anchor_append_of_still [Trigonometry] {cs : List Component} {k : Nat} {c : Component}
    {shape : Shape} {anchor : Anchor} {seat : Connector} (hget : cs[k]? = some c)
    (hshape : c.shape = some shape) (hseat : shape.anchor anchor = .ok (some seat))
    (hparent : c.parent = none) (hstill : c.direct = []) :
    (a.append cs).anchor (a.nth k) anchor = .ok seat := by
  have hget' : (a.append cs).get? (a.nth k) = some c := (get?_append_nth a cs k).trans hget
  have hroot : (a.append cs).parent? (a.nth k) = none := (parent?_of_get? hget').trans hparent
  refine anchor_of_still hget' hshape hseat fun other hother => ?_
  rw [ancestors_of_root hroot, List.mem_singleton] at hother
  rw [hother, direct_of_get? hget', hstill]

theorem checkFree_append {cs : List Component} {k : Nat} {c : Component} (hget : cs[k]? = some c)
    (hparent : c.parent = none) : (a.append cs).checkFree (a.nth k) = .ok () := by
  have hget' := (get?_append_nth a cs k).trans hget
  exact checkFree_eq_ok_iff.mpr ⟨contains_of_get? hget', (parent?_of_get? hget').trans hparent⟩

end Assembly

namespace Edit

variable {a : Assembly}

theorem transform_yields {id : ComponentId} (h : a.contains id = true)
    (steps : List Transformation) :
    (transform id steps).Yields a () (a.modify id fun c => c.moving steps) := by
  rcases Assembly.get?_of_contains h with ⟨c, hc⟩
  exact (Yields.read (Assembly.find_eq_ok_iff.mpr hc)).bind (Yields.change _ a)

theorem insert_append_yields (a : Assembly) (cs : List Component) (c : Component) :
    (insert c).Yields (a.append cs) (a.nth cs.length) (a.append (cs ++ [c])) := by
  rw [← Assembly.nextId_append, ← Assembly.insert_append]
  exact Yields.insert c _

/-- What a draft becomes if nothing is against it: the component itself, then the link to its
    parent, and then those to its children, in this order. -/
theorem create_yields {draft : Draft} (h : a.checkDraft draft = .ok ()) :
    (create draft).Yields a a.nextId ((match draft.parent with
      | none => a.insert draft.component
      | some parent => (a.insert draft.component).link parent a.nextId).linkAll a.nextId
        draft.children) := by
  refine (Yields.read h).bind ((Yields.insert _ a).bind ?_)
  cases draft.parent with
  | none => exact (Yields.change _ _).bind (Yields.pure _ _)
  | some parent =>
      exact (Yields.change _ _).bind ((Yields.change _ _).bind (Yields.pure _ _))

end Edit

end SolidModel
