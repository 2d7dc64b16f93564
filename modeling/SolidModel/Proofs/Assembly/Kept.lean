import SolidModel.Proofs.Assembly.Depth

/-!
# What Growth Leaves Alone

A component is what it was as long as nothing below it and nothing above it has changed.

The body of a component, and how it compares, depend on the components below it and on where all
of those stand. The latter is a matter of what is above them, and that need not be below the
component at all: an operand may belong to a parent in another part of the assembly. So
`Assembly.Kept` speaks of histories separately.

A plain copy changes one component that was there before: the parent that it joins. The parent of
a component is never below it, and only its list of children changes. Hence everything stands
where it stood, and whatever is below the source is kept.

## Main definitions

* `Assembly.Kept`: What is below a component, and where it stands, has not changed.

## Theorems

* `Assembly.Kept.body_eq`: A component that is kept has the body it had.
* `Assembly.Kept.structurallyEqual_eq`: Components that are kept compare as they did.
* `Assembly.WellFormed.history_eq_of_same`: Histories depend on parents and direct transformations.
* `Assembly.PlainCopy.kept`: A plain copy keeps its source.
* `Assembly.PlainCopy.history_copy`: A plain copy stands where its source stands.
-/

namespace SolidModel

open Relation

namespace Assembly

variable {a b : Assembly}

/-- Everything below a component is unchanged and stands where it stood. -/
structure Kept (a b : Assembly) (id : ComponentId) : Prop where
  /-- Nothing that it is made of has changed in itself. -/
  get?_eq : ∀ d, a.Reaches id d → b.get? d = a.get? d
  /-- Everything that it is made of has been through the same, together with what is above. -/
  history_eq : ∀ d, a.Reaches id d → b.history d = a.history d

namespace Kept

theorem part {id part : ComponentId} (h : a.Kept b id) (huse : a.Uses id part) : a.Kept b part where
  get?_eq d hd := h.get?_eq d (ReflTransGen.head huse hd)
  history_eq d hd := h.history_eq d (ReflTransGen.head huse hd)

theorem find_eq {id : ComponentId} (h : a.Kept b id) : b.find id = a.find id := by
  rw [find, find, h.get?_eq id ReflTransGen.refl]

theorem bodyWithin_eq {depth : Nat} : ∀ {id : ComponentId}, a.Kept b id →
    b.bodyWithin depth id = a.bodyWithin depth id := by
  induction depth with
  | zero => exact fun _ => rfl
  | succ depth ih =>
      intro id h
      rw [bodyWithin_succ, bodyWithin_succ, h.find_eq]
      cases hfind : a.find id with
      | error e => rfl
      | ok c =>
          -- What is below a kept component is kept as well.
          have hparts : ∀ y ∈ c.uses, b.bodyWithin depth y = a.bodyWithin depth y := by
            intro y hy
            refine ih (h.part ?_)
            rw [Uses, uses_of_get? (find_eq_ok_iff.mp hfind)]
            exact hy
          change b.bodyFrom _ id c = a.bodyFrom _ id c
          rw [bodyFrom_congr hparts]
          unfold bodyFrom place
          rw [h.history_eq id ReflTransGen.refl]

/-- A component that is kept has the body it had, if nothing is cut off. Of the assembly that has
    come of it only the size is asked: it may be anything where the component does not get to. -/
theorem body_eq {id : ComponentId} (h : a.Kept b id) (hwf : a.WellFormed)
    (hsize : a.size ≤ b.size) : b.body id = a.body id := by
  rw [body, h.bodyWithin_eq]
  exact hwf.bodyWithin_eq (Nat.lt_succ_of_le hsize) id

theorem structurallyEqualWithin_eq {depth : Nat} : ∀ {x y : ComponentId}, a.Kept b x → a.Kept b y →
    b.structurallyEqualWithin depth x y = a.structurallyEqualWithin depth x y := by
  induction depth with
  | zero => exact fun _ _ => rfl
  | succ depth ih =>
      intro x y hx hy
      have hgetx := hx.get?_eq x ReflTransGen.refl
      have hgety := hy.get?_eq y ReflTransGen.refl
      rw [structurallyEqualWithin_succ, structurallyEqualWithin_succ, contains_congr hgetx, hgetx,
        hgety]
      split
      · rfl
      · split
        · next left right hleft hright =>
            -- What is below is as it was, and so are the histories that lead to it.
            have hparts : ∀ v ∈ left.uses, ∀ w ∈ right.uses,
                b.structurallyEqualWithin depth v w = a.structurallyEqualWithin depth v w := by
              intro v hv w hw
              refine ih (hx.part ?_) (hy.part ?_)
              · rwa [Uses, uses_of_get? hleft]
              · rwa [Uses, uses_of_get? hright]
            rw [equalFrom_congr hparts]
            unfold equalFrom
            rw [hx.history_eq x ReflTransGen.refl, hy.history_eq y ReflTransGen.refl]
        · rfl

/-- Components that are kept compare as they did. -/
theorem structurallyEqual_eq {x y : ComponentId} (hx : a.Kept b x) (hy : a.Kept b y)
    (ha : a.WellFormed) (hb : b.WellFormed) :
    b.structurallyEqual x y = a.structurallyEqual x y := by
  have hdepth : a.size < a.size + b.size + 1 := by omega
  have hdepth' : b.size < a.size + b.size + 1 := by omega
  rw [← ha.structurallyEqualWithin_eq hdepth, ← hb.structurallyEqualWithin_eq hdepth',
    hx.structurallyEqualWithin_eq hy]

end Kept

/-- A component stands where it stood if the parents and the transformations of all components that
    were there are the same. New components make no difference, as no ancestor of what was there is
    among them. -/
theorem WellFormed.history_eq_of_same (ha : a.WellFormed) (hb : b.WellFormed)
    (hsame : ∀ z, a.contains z = true → b.parent? z = a.parent? z ∧ b.direct z = a.direct z)
    {id : ComponentId} (hid : a.contains id = true) : b.history id = a.history id := by
  -- The induction is on the length of the chain of parents.
  suffices hall : ∀ depth id, a.contains id = true →
      EndsWithin (fun id => (a.parent? id).toList) depth id → b.history id = a.history id by
    exact hall (a.size + 1) id hid (ha.parentsEnd id)
  intro depth
  induction depth with
  | zero => exact fun _ _ h => h.elim
  | succ depth ih =>
      intro id hid hends
      rw [hb.history_eq, ha.history_eq, (hsame id hid).1, (hsame id hid).2]
      cases hparent : a.parent? id with
      | none => rfl
      | some parent =>
          have hp :=
            ih parent (ha.contains_parent hparent) (hends parent (Option.mem_toList.mpr hparent))
          rw [Option.elim_some, Option.elim_some, hp]

namespace PlainCopy

variable {id : ComponentId} {s c : Component}

theorem contains_of_contains (h : a.PlainCopy b id s c) {z : ComponentId}
    (hz : a.contains z = true) : b.contains z = true := by
  rcases Edit.joined_spec h.before h.source with ⟨_, _, hcontains, _⟩
  exact h.grown.contains z ((hcontains z).mpr (Or.inl hz))

theorem size_le (h : a.PlainCopy b id s c) : a.size ≤ b.size :=
  size_le_of_contains fun _ => h.contains_of_contains

/-- Nothing that was there is changed but the parent. -/
theorem get?_eq (h : a.PlainCopy b id s c) {z : ComponentId} (hz : a.contains z = true)
    (hne : s.parent ≠ some z) : b.get? z = a.get? z := by
  rcases Edit.joined_spec h.before h.source with ⟨_, _, hcontains, hkept, _⟩
  rw [h.grown.kept z ((hcontains z).mpr (Or.inl hz)) fun heq => ?_, hkept z hz hne]
  exact ne_nextId_of_contains hz (Option.some.inj heq).symm

/-- The parent has one more child. -/
theorem get?_parent (h : a.PlainCopy b id s c) {p : ComponentId} {k : Component}
    (hp : s.parent = some p) (hk : a.get? p = some k) :
    b.get? p = some { k with children := k.children ++ [a.nextId] } := by
  rcases Edit.joined_spec h.before h.source with ⟨_, _, hcontains, _, hjoined⟩
  have hknown := contains_of_get? hk
  rw [h.grown.kept p ((hcontains p).mpr (Or.inl hknown)) fun heq => ?_, hjoined p k hp hk]
  exact ne_nextId_of_contains hknown (Option.some.inj heq).symm

/-- The parents and transformations of what was there are what they were. -/
theorem same (h : a.PlainCopy b id s c) {z : ComponentId} (hz : a.contains z = true) :
    b.parent? z = a.parent? z ∧ b.direct z = a.direct z := by
  by_cases hparent : s.parent = some z
  · rcases get?_of_contains hz with ⟨k, hk⟩
    have hb := h.get?_parent hparent hk
    rw [parent?_of_get? hk, parent?_of_get? hb]
    simp only [direct, hk, hb, and_self]
  · have hget := h.get?_eq hz hparent
    exact ⟨parent?_congr hget, by rw [direct, direct, hget]⟩

/-- Whatever was there stands where it stood. -/
theorem history_eq (h : a.PlainCopy b id s c) {z : ComponentId} (hz : a.contains z = true) :
    b.history z = a.history z :=
  h.before.history_eq_of_same h.after (fun _ hz => h.same hz) hz

theorem contains_source (h : a.PlainCopy b id s c) : a.contains id = true :=
  contains_of_get? h.source

/-- A plain copy keeps its source: the parent that it joins is not below the source. -/
theorem kept (h : a.PlainCopy b id s c) : a.Kept b id where
  get?_eq d hd := by
    have hknown := h.before.contains_of_reaches h.contains_source hd
    refine h.get?_eq hknown fun hparent => ?_
    have hp : a.parent? id = some d := by rw [parent?_of_get? h.source, hparent]
    exact h.before.acyclic d (TransGen.head' (h.before.uses_of_parent? hp) hd)
  history_eq d hd := h.history_eq (h.before.contains_of_reaches h.contains_source hd)

/-- A plain copy stands where its source stands. -/
theorem history_copy (h : a.PlainCopy b id s c) : b.history a.nextId = a.history id := by
  rw [h.after.history_eq, h.before.history_eq, parent?_of_get? h.source, parent?_of_get? h.copy,
    h.parent]
  simp only [direct, h.source, h.copy, h.mirrors.direct]
  cases hparent : s.parent with
  | none => rfl
  | some parent =>
      have hp : a.parent? id = some parent := by rw [parent?_of_get? h.source, hparent]
      rw [Option.elim_some, Option.elim_some, h.history_eq (h.before.contains_parent hp)]

end PlainCopy

end Assembly

end SolidModel
