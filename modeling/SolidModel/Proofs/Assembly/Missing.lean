import SolidModel.Proofs.Assembly.Amount

/-!
# Bodies That Are Missing

Which component is to blame if there is no body.

A body is made part by part, and the first part without a body ends it. The order of the parts is
that of the body: the children that are no operands, and then the operands of one composition after
another. `Assembly.tour` lists all that is met in this way, each component before its parts and as
often as it is used. Children that are operands are met as operands only, so that nothing below a
component is missed.

Only a bare component fails by itself, and it has no parts. Whatever is made of parts fails as the
first of them does that fails. Hence the component to blame is the first bare one on the tour, and
without any there is a body. In particular a composition of nothing is something.

`Assembly.Meets` says this of any computation that is made of others. It holds of a computation that
meets nothing, and it is put together along with sequences, lists and folds.

## Main definitions

* `Assembly.tour`: All that the body of a component is made of, in order.
* `Assembly.Meets`: A computation fails for the first bare component that it meets.

## Theorems

* `Assembly.meets_bodyFrom`: One step of the computation of a body, if it holds of the parts.
* `Assembly.WellFormed.tour_eq`: The tour without depth.
* `Assembly.WellFormed.mem_tour_iff`: A tour meets everything below.
* `Assembly.WellFormed.meets_body`: The body of a component fails for the first bare one on its
  tour.
* `Assembly.WellFormed.hasBody_iff_forall_not_bare`: There is a body if nothing below is bare.
* `Assembly.Reachable.body_missing`: When a component has no body, and why.
-/

namespace SolidModel

open Relation

instance : DecidablePred Component.Bare := fun c =>
  inferInstanceAs (Decidable (c.shape = none ∧ c.children = [] ∧ c.compositions = []))

namespace Assembly

variable {a : Assembly}

/-- What a component is made of, in the order of its body. -/
def parts (a : Assembly) (id : ComponentId) : List ComponentId :=
  match a.get? id with
  | none => []
  | some c => c.parts

theorem parts_of_get? {id : ComponentId} {c : Component} (h : a.get? id = some c) :
    a.parts id = c.parts := by
  simp only [parts, h]

theorem mem_parts_iff {id part : ComponentId} : part ∈ a.parts id ↔ a.Uses id part := by
  rw [parts, Uses, uses]
  cases a.get? id with
  | none => rfl
  | some c => exact Component.mem_parts_iff

/-- All that is met down to a depth when a body is made, each component before its parts. -/
def tourWithin (a : Assembly) : Nat → ComponentId → List ComponentId
  | 0, _ => []
  | depth + 1, id => id :: (a.parts id).flatMap (a.tourWithin depth)

/-- All that is met when the body of a component is made, in order: each component before its parts,
    and as often as it is used. -/
def tour (a : Assembly) (id : ComponentId) : List ComponentId := a.tourWithin (a.size + 1) id

/-- There is a component, and there is nothing to make its body from. -/
def isBare (a : Assembly) (id : ComponentId) : Bool := (a.get? id).any fun c => c.Bare

theorem isBare_of_get? {id : ComponentId} {c : Component} (h : a.get? id = some c) :
    a.isBare id = true ↔ c.Bare := by
  rw [isBare, h, Option.any_some, decide_eq_true_eq]

/-- A computation succeeds if no component that it meets is bare, and otherwise fails for the first
    one that is. -/
def Meets {α : Type} (a : Assembly) (met : List ComponentId) (result : Except AssemblyError α) :
    Prop :=
  match met.find? a.isBare with
  | none => ∃ value, result = .ok value
  | some bare => result = .error (.noBody bare)

namespace Meets

variable {α β : Type} {met met' : List ComponentId} {result : Except AssemblyError α}

theorem of_none (hfind : met.find? a.isBare = none) :
    a.Meets met result ↔ ∃ value, result = .ok value := by
  rw [Meets, hfind]

theorem of_some {bare : ComponentId} (hfind : met.find? a.isBare = some bare) :
    a.Meets met result ↔ result = .error (.noBody bare) := by
  rw [Meets, hfind]

/-- A computation succeeds if nothing that it meets is bare. -/
theorem exists_ok_iff (h : a.Meets met result) :
    (∃ value, result = .ok value) ↔ ∀ id ∈ met, ¬ a.isBare id = true := by
  rw [← List.find?_eq_none]
  cases hfind : met.find? a.isBare with
  | none => exact iff_of_true ((of_none hfind).mp h) rfl
  | some bare =>
      refine iff_of_false (fun ⟨value, hok⟩ => ?_) (Option.some_ne_none bare)
      rw [(of_some hfind).mp h] at hok
      cases hok

/-- A computation fails in no other way than for the first bare component that it meets. -/
theorem eq_error_iff (h : a.Meets met result) {e : AssemblyError} : result = .error e ↔
    ∃ bare, met.find? a.isBare = some bare ∧ e = .noBody bare := by
  cases hfind : met.find? a.isBare with
  | none =>
      rcases (of_none hfind).mp h with ⟨value, hok⟩
      simp only [hok, reduceCtorEq, false_and, exists_false]
  | some bare =>
      simp only [(of_some hfind).mp h, Except.error.injEq, Option.some.injEq, exists_eq_left',
        eq_comm]

theorem pure (a : Assembly) (value : α) : a.Meets [] (.ok value : Except AssemblyError α) :=
  ⟨value, rfl⟩

/-- What follows is met only if nothing before it is bare. -/
theorem bind {next : α → Except AssemblyError β} (h : a.Meets met result)
    (hnext : ∀ value, result = .ok value → a.Meets met' (next value)) :
    a.Meets (met ++ met') (result >>= next) := by
  cases hfind : met.find? a.isBare with
  | none =>
      rcases (of_none hfind).mp h with ⟨value, hvalue⟩
      have happend : (met ++ met').find? a.isBare = met'.find? a.isBare := by
        rw [List.find?_append, hfind, Option.none_or]
      rw [Meets, happend, hvalue]
      exact hnext value hvalue
  | some bare =>
      have happend : (met ++ met').find? a.isBare = some bare := by
        rw [List.find?_append, hfind, Option.some_or]
      rw [of_some happend, (of_some hfind).mp h]
      rfl

theorem mapM {f : ComponentId → Except AssemblyError α} {tour : ComponentId → List ComponentId}
    {l : List ComponentId} (h : ∀ id ∈ l, a.Meets (tour id) (f id)) :
    a.Meets (l.flatMap tour) (l.mapM f) := by
  induction l with
  | nil => exact pure a []
  | cons id rest ih =>
      rw [List.forall_mem_cons] at h
      rw [List.flatMap_cons, List.mapM_cons]
      refine h.1.bind fun value _ => ?_
      rw [← List.append_nil (rest.flatMap tour)]
      exact (ih h.2).bind fun values _ => pure a (value :: values)

theorem foldlM {f : β → α → Except AssemblyError β} {tour : α → List ComponentId} {l : List α}
    (h : ∀ x ∈ l, ∀ soFar, a.Meets (tour x) (f soFar x)) (start : β) :
    a.Meets (l.flatMap tour) (l.foldlM f start) := by
  induction l generalizing start with
  | nil => exact pure a start
  | cons x rest ih =>
      rw [List.forall_mem_cons] at h
      rw [List.flatMap_cons, List.foldlM_cons]
      exact (h.1 start).bind fun soFar _ => ih h.2 soFar

end Meets

section Step

variable {part : ComponentId → Except AssemblyError Body} {tour : ComponentId → List ComponentId}

/-- A fold over compositions has made nothing only if it did not start with anything and there is
    nothing to fold. -/
theorem eq_none_of_fold {compositions : List Composition} : ∀ {start : Option Body},
    compositions.foldlM (fun soFar composition => do
      let operands ← composition.operands.mapM part
      pure (some (enclose composition.operator soFar operands))) start = .ok none →
    start = none ∧ compositions = [] := by
  induction compositions with
  | nil => exact fun h => ⟨Except.ok.inj h, rfl⟩
  | cons composition rest ih =>
      intro start h
      rcases Except.bind_eq_ok_iff.mp h with ⟨between, hbetween, hrest⟩
      rcases Except.bind_eq_ok_iff.mp hbetween with ⟨operands, _, hsome⟩
      rw [(ih hrest).1] at hsome
      cases hsome

/-- A component without anything has no body. -/
theorem bodyFrom_of_bare {id : ComponentId} {c : Component} (h : c.Bare) :
    a.bodyFrom part id c = .error (.noBody id) := by
  rcases h with ⟨hshape, hchildren, hcompositions⟩
  rw [bodyFrom, hshape, Component.uncomposed, hchildren, hcompositions]
  rfl

/-- If the body of every part fails for the first bare component on a tour of the part, the body of
    a component fails for the first one on the tours of its parts, after the component itself. This
    is one step of the recursion, for any tours and any bodies of the parts. -/
theorem meets_bodyFrom {id : ComponentId} {c : Component} (hc : a.get? id = some c)
    (h : ∀ v ∈ c.parts, a.Meets (tour v) (part v)) :
    a.Meets (id :: c.parts.flatMap tour) (a.bodyFrom part id c) := by
  by_cases hbare : c.Bare
  · have hfind : (id :: c.parts.flatMap tour).find? a.isBare = some id :=
      List.find?_cons_of_pos ((isBare_of_get? hc).mpr hbare)
    rw [Meets.of_some hfind]
    exact bodyFrom_of_bare hbare
  · have hfind : (id :: c.parts.flatMap tour).find? a.isBare =
        (c.parts.flatMap tour).find? a.isBare :=
      List.find?_cons_of_neg fun hid => hbare ((isBare_of_get? hc).mp hid)
    rw [Meets, hfind, Component.parts, List.flatMap_append]
    refine Meets.bind (Meets.mapM fun v hv => h v (List.mem_append_left _ hv))
      fun bodies hbodies => ?_
    -- The last step adds nothing to the tour, for there is something to make a body from.
    rw [Component.composed, List.flatMap_assoc, ← List.append_nil (List.flatMap _ _)]
    refine Meets.bind (Meets.foldlM (fun composition hp soFar => ?_) _) fun composed hcomposed => ?_
    · rw [← List.append_nil (List.flatMap _ _)]
      refine Meets.bind (Meets.mapM fun v hv => h v ?_) fun operands _ => Meets.pure a _
      exact List.mem_append_right _ (Component.mem_composed.mpr ⟨composition, hp, hv⟩)
    · cases composed with
      | none => exact absurd ((base_eq_none_iff_bare hbodies).mp (eq_none_of_fold hcomposed)) hbare
      | some whole => exact Meets.pure a (whole.paint c.color)

end Step

/-- A tour down to a depth beyond which nothing goes is the tour at any depth. -/
theorem tourWithin_eq_of_endsWithin {depth depth' : Nat} {id : ComponentId}
    (hle : depth ≤ depth') (h : EndsWithin a.uses depth id) :
    a.tourWithin depth' id = a.tourWithin depth id := by
  refine EndsWithin.recursion_eq (fun depth depth' id hpart => ?_) hle h
  rw [tourWithin, tourWithin,
    List.flatMap_congr fun v hv => hpart v (mem_parts_iff.mp hv)]

namespace WellFormed

/-- What holds of a component if it holds of everything that it uses holds of every component. -/
theorem uses_induction (h : a.WellFormed) {P : ComponentId → Prop}
    (hstep : ∀ id, (∀ part, a.Uses id part → P part) → P id) (id : ComponentId) : P id := by
  suffices hall : ∀ depth id, EndsWithin a.uses depth id → P id from hall _ id (h.usesEnd id)
  intro depth
  induction depth with
  | zero => exact fun _ hends => hends.elim
  | succ depth ih => exact fun id hends => hstep id fun part hpart => ih part (hends part hpart)

/-- The tour of a component goes through its parts. -/
theorem tour_eq (h : a.WellFormed) (id : ComponentId) :
    a.tour id = id :: (a.parts id).flatMap a.tour := by
  have hdeeper : a.tourWithin (a.size + 2) id = a.tour id :=
    tourWithin_eq_of_endsWithin (Nat.le_succ _) (h.usesEnd id)
  rw [← hdeeper, tourWithin]
  rfl

/-- A tour meets everything below, and nothing else. A child that is an operand is not met among the
    children, but it is met among the operands. -/
theorem mem_tour_iff (h : a.WellFormed) {id other : ComponentId} :
    other ∈ a.tour id ↔ a.Reaches id other := by
  constructor
  · -- Down the tour one way, and along the path the other way.
    induction id using h.uses_induction with
    | hstep id ih =>
        intro hother
        rw [h.tour_eq, List.mem_cons, List.mem_flatMap] at hother
        rcases hother with rfl | ⟨part, hpart, hother⟩
        · exact ReflTransGen.refl
        · have huse := mem_parts_iff.mp hpart
          exact ReflTransGen.head huse (ih part huse hother)
  · intro hreach
    induction hreach using ReflTransGen.head_induction_on with
    | refl =>
        rw [h.tour_eq]
        exact List.mem_cons_self
    | head huse _ ih =>
        rw [h.tour_eq]
        exact List.mem_cons_of_mem _ (List.mem_flatMap.mpr ⟨_, mem_parts_iff.mpr huse, ih⟩)

/-- The body of a component fails for the first bare component on the tour. If there is none on the
    tour it does not fail. -/
theorem meets_body (h : a.WellFormed) {id : ComponentId} (hid : a.contains id = true) :
    a.Meets (a.tour id) (a.body id) := by
  induction id using h.uses_induction with
  | hstep id ih =>
      rcases get?_of_contains hid with ⟨c, hc⟩
      rw [h.tour_eq, h.body_eq, find_eq_ok_iff.mpr hc, Except.ok_bind, parts_of_get? hc]
      refine meets_bodyFrom hc fun v hv => ?_
      rw [← parts_of_get? hc] at hv
      have huse := mem_parts_iff.mp hv
      exact ih v huse (h.contains_of_uses id v huse)

/-- There is a body exactly if nothing below is bare. -/
theorem hasBody_iff_forall_not_bare (h : a.WellFormed) {id : ComponentId}
    (hid : a.contains id = true) : a.HasBody id ↔
      ∀ other c, a.Reaches id other → a.get? other = some c → ¬ c.Bare := by
  rw [HasBody, (h.meets_body hid).exists_ok_iff]
  constructor
  · exact fun hall other c hreach hc hbare =>
      hall other (h.mem_tour_iff.mpr hreach) ((isBare_of_get? hc).mpr hbare)
  · intro hall other hmem hbare
    have hreach := h.mem_tour_iff.mp hmem
    rcases get?_of_contains (h.contains_of_reaches hid hreach) with ⟨c, hc⟩
    exact hall other c hreach hc ((isBare_of_get? hc).mp hbare)

end WellFormed

namespace Reachable

/-- A component of a reachable assembly has a body if nothing below it is bare, and otherwise is
    refused for the first bare component that is met.

    The tour says in which order that is. It meets a component before its parts, uncomposed children
    before operands, and all that is below one part before the next, and it meets everything that
    can be reached. No component is ever said to be unknown. A composition of nothing is something
    to make a body from. -/
theorem body_missing (h : a.Reachable) {id : ComponentId} (hid : a.contains id = true) :
    (a.HasBody id ↔ ∀ other c, a.Reaches id other → a.get? other = some c → ¬ c.Bare) ∧
      (∀ e, a.body id = .error e ↔
        ∃ bare, (a.tour id).find? a.isBare = some bare ∧ e = .noBody bare) ∧
      (∀ other, other ∈ a.tour id ↔ a.Reaches id other) ∧
      (∀ other c, a.get? other = some c → a.tour other =
        other :: (c.uncomposed ++ c.compositions.flatMap (·.operands)).flatMap a.tour) ∧
      (∀ missing, a.body id ≠ .error (.unknown missing)) ∧
      ∀ c, a.get? id = some c → c.compositions ≠ [] → c.uses = [] → a.HasBody id := by
  have hwf := h.wellFormed
  have hmeets := hwf.meets_body hid
  refine ⟨hwf.hasBody_iff_forall_not_bare hid, fun _ => hmeets.eq_error_iff,
    fun _ => hwf.mem_tour_iff, fun other c hc => ?_, fun missing hfail => ?_,
    fun c hc hcompositions huses => ?_⟩
  · rw [hwf.tour_eq, parts_of_get? hc]
    rfl
  · rcases hmeets.eq_error_iff.mp hfail with ⟨bare, _, heq⟩
    cases heq
  · refine (hwf.hasBody_iff hc).mpr ⟨fun hbare => hcompositions hbare.2.2, fun v hv => ?_⟩
    rw [huses] at hv
    exact absurd hv List.not_mem_nil

/-- A difference of two things with nothing to make them from, of which the child is met first, and
    a union of nothing. -/
theorem body_missing_twice :
    let a : Assembly := ⟨#[
      {},
      { parent := some ⟨5⟩, shape := some (.sphere 1) },
      { compositions := [⟨.union, []⟩] },
      { parent := some ⟨5⟩ },
      { children := [⟨2⟩, ⟨4⟩], compositions := [⟨.difference, [⟨1⟩, ⟨3⟩]⟩, ⟨.union, [⟨2⟩]⟩] }]⟩
    a.Reachable ∧ a.contains ⟨5⟩ = true ∧ a.tour ⟨5⟩ = [⟨5⟩, ⟨4⟩, ⟨1⟩, ⟨3⟩, ⟨2⟩] ∧
      a.body ⟨5⟩ = .error (.noBody ⟨4⟩) ∧ a.contains ⟨3⟩ = true ∧ a.HasBody ⟨3⟩ := by
  intro a
  have h : a.Reachable := by
    have h := ((Reachable.empty.step (.create {})).step (.add (.sphere 1))).step
      (.create { compositions := [⟨.union, []⟩] })
    exact (h.step (.create {})).step (.create
      { children := [⟨2⟩, ⟨4⟩], compositions := [⟨.difference, [⟨1⟩, ⟨3⟩]⟩, ⟨.union, [⟨2⟩]⟩] })
  have hwhole := h.body_missing (show a.contains ⟨5⟩ = true from rfl)
  have hempty := h.body_missing (show a.contains ⟨3⟩ = true from rfl)
  refine ⟨h, rfl, rfl, (hwhole.2.1 _).mpr ⟨⟨4⟩, rfl, rfl⟩, rfl, ?_⟩
  exact hempty.2.2.2.2.2 _ rfl (List.cons_ne_nil _ _) rfl

end Reachable

end Assembly

end SolidModel
