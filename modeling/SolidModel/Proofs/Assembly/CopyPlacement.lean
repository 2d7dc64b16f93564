import SolidModel.Proofs.Assembly.Reachable
import SolidModel.Proofs.Assembly.Tally

/-!
# Where Copies Stand

When a plain copy is as good as its source.

A plain copy joins the parent of its source, and it shares the operands that are no children. So it
stands where the source stands, and so do its children. But the copies of the children are isolated
ones: if a child, or anything below it, has an operand that is not its own child, the copy of the
child has a copy of the operand instead, and that one belongs to nobody. What the ancestors of the
operand do to the operand, they do not do to the copy of it.

That is the only way for a plain copy to go wrong, and it always goes wrong that way. It happens
as soon as a component moves that has two children of which one is an operand of the other.

## Main definitions

* `Assembly.CopiesInPlace`: A plain copy of a component loses nothing.

## Theorems

* `Assembly.PlainCopy.structurallyEqual_iff`: A copy is equal to its source exactly if nothing is
  lost.
* `Assembly.PlainCopy.body_copy`: Then it has the same body.
* `Assembly.Reachable.copy_in_place_iff`: So it is in every reachable assembly.
-/

namespace SolidModel

open Relation

namespace Assembly

variable {a b : Assembly}

/-- Nothing below a child has an operand that moves with anything but its user. Whatever is below a
    child is copied in isolation, so that the copy of such an operand would stay behind. -/
def CopiesInPlace (a : Assembly) (id : ComponentId) : Prop :=
  ∀ child ∈ a.children id, a.Intact child

namespace PlainCopy

variable {id : ComponentId} {s c : Component}

theorem get?_source (h : a.PlainCopy b id s c) : b.get? id = some s := by
  rw [h.kept.get?_eq id ReflTransGen.refl, h.source]

/-- The copy and the source stand in one place. -/
theorem history_eq_source (h : a.PlainCopy b id s c) : b.history a.nextId = b.history id :=
  h.history_copy.trans (h.kept.history_eq id ReflTransGen.refl).symm

theorem kept_part (h : a.PlainCopy b id s c) {v : ComponentId} (hv : v ∈ s.uses) : a.Kept b v :=
  h.kept.part (by rw [Uses, uses_of_get? h.source]; exact hv)

/-- The copy of a child stands where the child stands. -/
theorem history_child (h : a.PlainCopy b id s c) {v w : ComponentId} (hv : v ∈ s.children)
    (hdup : a.Duplicate b a.size (some a.nextId) v w) : b.history w = a.history v := by
  have hmem : v ∈ a.children id := by rw [children_of_get? h.source]; exact hv
  rcases hdup.history_child h.before h.after hmem with ⟨hw, hv'⟩
  rw [hw, hv', h.history_copy]

/-- What a copy shares with its source is no child of the copy. -/
theorem not_mem_children (h : a.PlainCopy b id s c) {v : ComponentId} (hv : v ∈ s.composed) :
    v ∉ c.children := by
  intro hmem
  rw [← children_of_get? h.copy, h.after.mem_children_iff] at hmem
  have huse : a.Uses id v := by
    rw [Uses, uses_of_get? h.source]
    exact List.mem_append_right _ hv
  rw [(h.same (h.before.contains_of_uses id v huse)).1] at hmem
  exact WellFormed.not_contains_nextId a (h.before.contains_parent hmem)

/-- A plain copy that is equal to its source has lost nothing. -/
theorem copiesInPlace (h : a.PlainCopy b id s c)
    (hequal : b.structurallyEqual id a.nextId = true) : a.CopiesInPlace id := by
  -- Steps are counted. A copy never has more of them than its source, and if it has as many, none
  -- is missing.
  have htallies : Component.Mirrors
      (fun v w => b.tallyWithin b.size w ≤ b.tallyWithin b.size v ∧
        (b.tallyWithin b.size w = b.tallyWithin b.size v → a.Intact v))
      (fun v w => b.tallyWithin b.size w ≤ b.tallyWithin b.size v) s c := by
    refine h.mirrors.imp (fun v hv w _ hvw => ?_)
      fun v _ _ w _ hvw => Nat.le_of_eq (by rw [hvw])
    have hplace := h.history_child hv hvw.2
    have htally := hvw.2.tally_le h.before h.after h.size_le
      (h.kept_part (List.mem_append_left _ hv)) (Nat.le_of_eq (congrArg List.length hplace))
    exact ⟨htally.1, fun heq => (htally.2 heq).2⟩
  have hwhole := tallyWithin_mirrors h.get?_source h.copy
    (Nat.le_of_eq (congrArg List.length h.history_eq_source))
    (htallies.imp (fun _ _ _ _ hvw => hvw.1) fun _ _ _ _ _ hvw => hvw)
  have hparts := (hwhole.2 (tallyWithin_eq_of_equal hequal).symm).2
  intro child hchild
  rw [children_of_get? h.source] at hchild
  rcases exists_of_mem_right (htallies.and hparts).children.flip hchild with ⟨w, _, hw⟩
  exact hw.1.2 hw.2

/-- The children of a plain copy that has lost nothing resemble the children of the source. -/
theorem resembles_child (h : a.PlainCopy b id s c) (hplaces : a.CopiesInPlace id)
    {v w : ComponentId} (hv : v ∈ s.children)
    (hdup : a.Duplicate b a.size (some a.nextId) v w) :
    b.Resembles (fun v w => b.history w = b.history v) a.size v w := by
  have hintact : a.Intact v := hplaces v (by rw [children_of_get? h.source]; exact hv)
  exact hdup.resembles h.before h.after (h.kept_part (List.mem_append_left _ hv))
    (h.history_child hv hdup) hintact

/-- A plain copy is equal to its source exactly if it has lost nothing. The copies of the children
    stand where the children do, and shared operands are the same ones. So what can differ is below
    the children: an operand there that has been copied as well, and whose copy no longer moves. -/
theorem structurallyEqual_iff (h : a.PlainCopy b id s c) (hfinite : a.Finite) :
    b.structurallyEqual id a.nextId = true ↔ a.CopiesInPlace id := by
  refine ⟨h.copiesInPlace, fun hplaces => ?_⟩
  have hsource := hfinite id s h.source
  rcases h.kept.finiteBelow hfinite id ReflTransGen.refl with ⟨_, hsteps⟩
  refine structurallyEqualWithin_of_mirrors h.get?_source h.copy hsource hsteps
    h.history_eq_source ?_
  refine h.mirrors.imp (fun v hv w _ hvw => ?_) fun v hv _ w _ hvw => ?_
  · refine Resembles.structurallyEqual h.size_le ?_ (h.resembles_child hplaces hv hvw.2)
    exact (h.kept_part (List.mem_append_left _ hv)).finiteBelow hfinite
  · -- A shared operand is compared with itself, for which there is depth enough.
    have hknown : b.contains v = true := by
      refine h.after.contains_of_uses id v ?_
      rw [Uses, uses_of_get? h.get?_source]
      exact List.mem_append_right _ hv
    have hpos : 0 < b.size := Nat.lt_of_lt_of_le (contains_iff_number.mp hknown).1
      (contains_iff_number.mp hknown).2
    rw [hvw, ← Nat.succ_pred_eq_of_pos hpos, structurallyEqualWithin_succ, if_pos rfl]
    exact hknown

/-- A plain copy that has lost nothing has the body of its source. That it is equal to the source
    would not be enough for it, since equality goes by a tolerance and leaves out colors. -/
theorem body_copy (h : a.PlainCopy b id s c) (hplaces : a.CopiesInPlace id) {solid : Body}
    (hsolid : b.body id = .ok solid) : b.body a.nextId = .ok solid := by
  have hnodup : s.children.Nodup ∧ c.children.Nodup := by
    rw [← children_of_get? h.source, ← children_of_get? h.copy]
    exact ⟨h.before.nodup_children id, h.after.nodup_children a.nextId⟩
  -- Parts are alike where nothing is lost, and what is shared is the same.
  have hparts : Component.Mirrors
      (fun v w => Except.Alike (· = ·) (b.bodyWithin b.size v) (b.bodyWithin b.size w))
      (fun v w => w ∉ c.children ∧
        Except.Alike (· = ·) (b.bodyWithin b.size v) (b.bodyWithin b.size w)) s c := by
    refine h.mirrors.imp (fun v hv w _ hvw => ?_) fun v hv _ w _ hvw => ?_
    · refine Resembles.body_alike Body.compatible_eq h.after (fun x y hxy shape => ?_) h.size_le
        (h.resembles_child hplaces hv hvw.2)
      simp only [place, hxy]
    · rw [hvw]
      exact ⟨h.not_mem_children hv, Except.Alike.refl_eq _⟩
  have hplace : ∀ shape : Shape,
      b.place id (.primitive shape.primitive) = b.place a.nextId (.primitive shape.primitive) :=
    fun shape => by simp only [place, h.history_eq_source]
  refine Except.Alike.eq_ok ?_ hsolid
  rw [body, body, bodyWithin_succ, bodyWithin_succ, find_eq_ok_iff.mpr h.get?_source,
    find_eq_ok_iff.mpr h.copy]
  exact bodyFrom_alike Body.compatible_eq hplace hnodup.1 hnodup.2 (fun _ _ hw => hw) hparts

end PlainCopy

namespace Reachable

/-- In every reachable assembly of finite numbers a plain copy succeeds with a new id, and the
    source has the body it had. Whether the copy is structurally equal to the source depends on what
    is below the children of the source: it is exactly if no component there has an operand that is
    not a child of it and stands below a component with transformations. For a child is copied in
    isolation, and with it such an operand, whose copy belongs to nobody and so loses what moved the
    operand. If there is no such operand, and the source has a body, then the copy has the same
    body. -/
theorem copy_in_place_iff (h : a.Reachable) (hfinite : a.Finite) {id : ComponentId}
    (hid : a.contains id = true) :
    ∃ b, (Edit.copy id false).Yields a a.nextId b ∧ ¬ a.contains a.nextId = true ∧
      b.body id = a.body id ∧
      (b.structurallyEqual id a.nextId = true ↔ a.CopiesInPlace id) ∧
      (a.CopiesInPlace id → ∀ body, b.body id = .ok body → b.body a.nextId = .ok body) := by
  have hwf := h.wellFormed
  rcases exists_plainCopy hwf hid with ⟨b, s, c, hyields, hcopy⟩
  exact ⟨b, hyields, WellFormed.not_contains_nextId a, hcopy.kept.body_eq hwf hcopy.size_le,
    hcopy.structurallyEqual_iff hfinite, fun hplaces _ hbody => hcopy.body_copy hplaces hbody⟩

/-- A sphere is a child and another one is not, both are combined, and the whole is moved. -/
theorem copy_in_place_raised :
    let a : Assembly := ⟨#[
      { shape := some (.sphere 1) },
      { parent := some ⟨3⟩, shape := some (.sphere 2) },
      { children := [⟨2⟩], compositions := [⟨.union, [⟨1⟩, ⟨2⟩]⟩],
        direct := [.translate ⟨0, 0, 1⟩] }]⟩
    a.Reachable ∧ a.Finite ∧ a.contains ⟨3⟩ = true ∧ a.CopiesInPlace ⟨3⟩ ∧
      ∃ b, (Edit.copy ⟨3⟩ false).Yields a ⟨4⟩ b ∧ b.body ⟨3⟩ = a.body ⟨3⟩ ∧
        b.structurallyEqual ⟨3⟩ ⟨4⟩ = true ∧
        ∀ body, b.body ⟨3⟩ = .ok body → b.body ⟨4⟩ = .ok body := by
  intro a
  have h : a.Reachable :=
    (((Reachable.empty.step (.add (.sphere 1))).step (.add (.sphere 2))).step
      (.create { children := [⟨2⟩], compositions := [⟨.union, [⟨1⟩, ⟨2⟩]⟩] })).step
      (.transform ⟨3⟩ [.translate ⟨0, 0, 1⟩])
  have hfinite : a.Finite := finite_of_components (by decide)
  have hplaces : a.CopiesInPlace ⟨3⟩ := by
    intro child hchild
    rw [List.mem_singleton.mp (show child ∈ [⟨2⟩] from hchild)]
    refine (intact_iff (s := { parent := some ⟨3⟩, shape := some (.sphere 2) }) rfl).mpr ⟨?_, ?_⟩
    · exact fun operand hoperand => absurd hoperand List.not_mem_nil
    · exact fun part hpart => absurd hpart List.not_mem_nil
  rcases h.copy_in_place_iff hfinite (show a.contains ⟨3⟩ = true from rfl) with
    ⟨b, hyields, _, hbody, hequal, hsame⟩
  exact ⟨h, hfinite, rfl, hplaces, b, hyields, hbody, hequal.mpr hplaces, hsame hplaces⟩

/-- A component is moved that has two children, one of which is an operand of the other. The copy
    of the operand is left behind. -/
theorem copy_not_in_place :
    let sphere := Shape.sphere 1
    let raised := Body.moved (.translate ⟨0, 0, 1⟩) (.primitive sphere.primitive)
    let a : Assembly := ⟨#[
      { parent := some ⟨3⟩, shape := some sphere },
      { parent := some ⟨3⟩, compositions := [⟨.union, [⟨1⟩]⟩] },
      { children := [⟨1⟩, ⟨2⟩], direct := [.translate ⟨0, 0, 1⟩] }]⟩
    ∃ b, a.Reachable ∧ a.Finite ∧ a.contains ⟨3⟩ = true ∧ (Edit.copy ⟨3⟩ false).Yields a ⟨4⟩ b ∧
      b.structurallyEqual ⟨3⟩ ⟨4⟩ = false ∧
      b.body ⟨3⟩ = .ok (.composition .union [raised, .composition .union [raised]]) ∧
      b.body ⟨4⟩ =
        .ok (.composition .union [raised, .composition .union [.primitive sphere.primitive]]) := by
  have hparts : Reachable ⟨#[
      { shape := some (.sphere 1) },
      { compositions := [⟨.union, [⟨1⟩]⟩] }]⟩ :=
    (Reachable.empty.step (.add (.sphere 1))).step (.create { compositions := [⟨.union, [⟨1⟩]⟩] })
  have hwhole : Reachable ⟨#[
      { parent := some ⟨3⟩, shape := some (.sphere 1) },
      { parent := some ⟨3⟩, compositions := [⟨.union, [⟨1⟩]⟩] },
      { children := [⟨1⟩, ⟨2⟩] }]⟩ :=
    hparts.step (.create { children := [⟨1⟩, ⟨2⟩] })
  refine ⟨⟨#[
    { parent := some ⟨3⟩, shape := some (.sphere 1) },
    { parent := some ⟨3⟩, compositions := [⟨.union, [⟨1⟩]⟩] },
    { children := [⟨1⟩, ⟨2⟩], direct := [.translate ⟨0, 0, 1⟩] },
    { children := [⟨5⟩, ⟨6⟩], direct := [.translate ⟨0, 0, 1⟩] },
    { parent := some ⟨4⟩, shape := some (.sphere 1) },
    { parent := some ⟨4⟩, compositions := [⟨.union, [⟨7⟩]⟩] },
    { shape := some (.sphere 1) }]⟩, hwhole.step (.transform ⟨3⟩ [.translate ⟨0, 0, 1⟩]),
    finite_of_components (by decide), rfl, ⟨rfl, rfl⟩, rfl, rfl, rfl⟩

end Reachable

end Assembly

end SolidModel
