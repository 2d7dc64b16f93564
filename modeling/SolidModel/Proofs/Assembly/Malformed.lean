import SolidModel.Proofs.Assembly.Missing
import SolidModel.Proofs.Connector.Landing
import SolidModel.Proofs.Vec3.Failures

/-!
# Rotations Without an Angle

Which of the two ways to replay a history takes offence at a rotation without an angle.

A history is recorded as it is given, and nobody looks at it until it is replayed. Carried along
with a component, a connector takes one movement after another, and a rotation without an angle ends
it, unless it has ended before. A body does not take movements. It is wrapped in them, and nothing
can go wrong with a wrapper. So a rotation that no connector survives is handed on to whoever reads
the body.

Since nothing but leaves is wrapped, and each in the history of its component, the bodies that hold
such a rotation are known: those in which a component is shown that stands under one. There is no
other sign of it. Whether there is a body does not depend on histories at all.

## Main definitions

* `Transformation.Malformed`: A rotation without an angle.
* `Body.wrappers`: All transformations that a body holds.
* `Assembly.Unturned`: A component stands under a rotation without an angle.

## Theorems

* `Body.wrappers_eq_flatMap`: If only leaves are moved, the wrappers are those of the leaves.
* `Connector.moveAll_eq_missingAngle_iff`: Which histories a connector takes offence at.
* `Connector.moveAll_fails_of_malformed`: It survives none with a rotation that has no angle.
* `Assembly.Reachable.body_malformed`: A body takes offence at nothing.
-/

namespace SolidModel

/-- A rotation without an angle. -/
def Transformation.Malformed : Transformation → Prop
  | .translate _ => False
  | .rotate rotation => rotation.angle = none
  | .scale _ => False

instance : DecidablePred Transformation.Malformed
  | .translate _ => inferInstanceAs (Decidable False)
  | .rotate rotation => inferInstanceAs (Decidable (rotation.angle = none))
  | .scale _ => inferInstanceAs (Decidable False)

theorem Transformation.malformed_iff {step : Transformation} :
    step.Malformed ↔ ∃ pole, step = .rotate ⟨none, pole⟩ := by
  cases step with
  | translate offset => exact iff_of_false id fun ⟨_, h⟩ => Transformation.noConfusion h
  | scale factor => exact iff_of_false id fun ⟨_, h⟩ => Transformation.noConfusion h
  | rotate rotation =>
      rcases rotation with ⟨angle, pole⟩
      constructor
      · intro hangle
        have hangle' : angle = none := hangle
        exact ⟨pole, by rw [hangle']⟩
      · rintro ⟨pole', heq⟩
        cases heq
        rfl

/-- A list with a malformed rotation in it has a first one. -/
theorem Transformation.exists_first_malformed {steps : List Transformation}
    (h : ∃ step ∈ steps, step.Malformed) :
    ∃ before pole rest, steps = before ++ .rotate ⟨none, pole⟩ :: rest ∧
      ∀ step ∈ before, ¬ step.Malformed := by
  induction steps with
  | nil =>
      rcases h with ⟨step, hstep, _⟩
      exact absurd hstep List.not_mem_nil
  | cons step rest ih =>
      by_cases hstep : step.Malformed
      · rcases malformed_iff.mp hstep with ⟨pole, rfl⟩
        exact ⟨[], pole, rest, rfl, fun _ h => absurd h List.not_mem_nil⟩
      · rw [List.exists_mem_cons_iff, or_iff_right hstep] at h
        rcases ih h with ⟨before, pole, rest, rfl, hbefore⟩
        exact ⟨step :: before, pole, rest, rfl, List.forall_mem_cons.mpr ⟨hstep, hbefore⟩⟩

namespace Body

mutual

/-- All transformations that a body holds, from left to right and the inner ones first. They are
    what is handed on to whoever renders the body. -/
def wrappers : Body → List Transformation
  | .primitive _ => []
  | .composition _ operands => wrappersOfAll operands
  | .moved step child => wrappers child ++ [step]
  | .colored _ child => wrappers child

/-- All transformations that several bodies hold. -/
def wrappersOfAll : List Body → List Transformation
  | [] => []
  | body :: rest => wrappers body ++ wrappersOfAll rest

end

/-- What a leaf holds are its steps. -/
theorem wrappers_of_leaf? : ∀ {body : Body} {leaf : Leaf}, body.leaf? = some leaf →
    body.wrappers = leaf.steps
  | .primitive solid, leaf, h => by
      cases h
      rfl
  | .moved step child, leaf, h => by
      rw [leaf?, Option.map_eq_some_iff] at h
      rcases h with ⟨inner, hinner, rfl⟩
      rw [wrappers, wrappers_of_leaf? hinner]

mutual

/-- If nothing but leaves is moved, a body holds the steps of its leaves. -/
theorem wrappers_eq_flatMap : ∀ body : Body, body.MovesLeaves →
    body.wrappers = body.leaves.flatMap Leaf.steps
  | .primitive _, _ => rfl
  | .composition _ operands, h => wrappersOfAll_eq_flatMap operands h
  | .moved step child, h => by
      rcases Option.isSome_iff_exists.mp h with ⟨leaf, hleaf⟩
      simp only [wrappers, leaves, hleaf, wrappers_of_leaf? hleaf, List.flatMap_singleton]
  | .colored _ child, h => wrappers_eq_flatMap child h

theorem wrappersOfAll_eq_flatMap : ∀ bodies : List Body, AllMoveLeaves bodies →
    wrappersOfAll bodies = (leavesOfAll bodies).flatMap Leaf.steps
  | [], _ => rfl
  | body :: rest, h => by
      rw [wrappersOfAll, leavesOfAll, List.flatMap_append, wrappers_eq_flatMap body h.1,
        wrappersOfAll_eq_flatMap rest h.2]

end

end Body

/-- A movement has failed for the sake of a vector. -/
def PlacementError.OfVector (e : PlacementError) : Prop := ∃ cause, e = .degenerate cause

namespace Connector

variable [Trigonometry]

theorem move_rotate_none (c : Connector) (pole : Option Vec3) :
    c.move (.rotate ⟨none, pole⟩) = .error (.missingAngle pole) := by
  cases pole <;> rfl

/-- Any other movement fails for the sake of a vector, if at all. -/
theorem move_failsOnly_ofVector (c : Connector) {step : Transformation} (h : ¬ step.Malformed) :
    Except.FailsOnly PlacementError.OfVector (c.move step) := by
  have hvector {α : Type} (x : Except Degeneracy α) :
      Except.FailsOnly PlacementError.OfVector (x.mapError .degenerate) := by
    intro e he
    cases x with
    | ok _ => cases he
    | error cause =>
        cases he
        exact ⟨cause, rfl⟩
  cases step with
  | translate offset => exact hvector _
  | scale factor => exact hvector _
  | rotate rotation =>
      change Except.FailsOnly PlacementError.OfVector (c.rotate rotation)
      unfold rotate
      split
      · next hangle => exact absurd hangle h
      · exact hvector _
      · exact hvector _
      · exact hvector _

/-- A history without malformed rotations fails for the sake of a vector, if at all. -/
theorem moveAll_failsOnly_ofVector (c : Connector) {steps : List Transformation}
    (h : ∀ step ∈ steps, ¬ step.Malformed) :
    Except.FailsOnly PlacementError.OfVector (c.moveAll steps) := by
  induction steps generalizing c with
  | nil => exact Except.FailsOnly.ok _ c
  | cons step rest ih =>
      rw [List.forall_mem_cons] at h
      exact (move_failsOnly_ofVector c h.1).bind fun moved _ => ih moved h.2

/-- Nothing behind a rotation without an angle is ever taken. -/
theorem moveAll_of_malformed (c : Connector) (before rest : List Transformation)
    (pole : Option Vec3) : c.moveAll (before ++ .rotate ⟨none, pole⟩ :: rest) =
      c.moveAll before >>= fun _ => .error (.missingAngle pole) := by
  rw [moveAll_append]
  refine congrArg _ (funext fun moved => ?_)
  rw [moveAll, move_rotate_none]
  rfl

/-- No connector survives a history with a malformed rotation. -/
theorem moveAll_fails_of_malformed (c : Connector) {steps : List Transformation}
    (h : ∃ step ∈ steps, step.Malformed) : ∃ e, c.moveAll steps = .error e := by
  rcases Transformation.exists_first_malformed h with ⟨before, pole, rest, rfl, _⟩
  rw [moveAll_of_malformed]
  cases c.moveAll before with
  | error e => exact ⟨e, rfl⟩
  | ok moved => exact ⟨.missingAngle pole, rfl⟩

/-- A connector fails for want of an angle at the first malformed rotation, if it gets there. It
    does not get there if a movement before that fails for another reason, which is then the one
    that is told. -/
theorem moveAll_eq_missingAngle_iff (c : Connector) (steps : List Transformation)
    (pole : Option Vec3) : c.moveAll steps = .error (.missingAngle pole) ↔
      ∃ before rest moved, steps = before ++ .rotate ⟨none, pole⟩ :: rest ∧
        (∀ step ∈ before, ¬ step.Malformed) ∧ c.moveAll before = .ok moved := by
  constructor
  · intro hfails
    by_cases hmalformed : ∃ step ∈ steps, step.Malformed
    · rcases Transformation.exists_first_malformed hmalformed with
        ⟨before, pole', rest, rfl, hbefore⟩
      rw [moveAll_of_malformed] at hfails
      cases hmoved : c.moveAll before with
      | ok moved =>
          rw [hmoved] at hfails
          cases hfails
          exact ⟨before, rest, moved, rfl, hbefore, hmoved⟩
      | error e =>
          -- The steps before have failed, but not for want of an angle.
          rw [hmoved] at hfails
          cases hfails
          rcases moveAll_failsOnly_ofVector c hbefore _ hmoved with ⟨cause, hcause⟩
          cases hcause
    · push Not at hmalformed
      rcases moveAll_failsOnly_ofVector c hmalformed _ hfails with ⟨cause, hcause⟩
      cases hcause
  · rintro ⟨before, rest, moved, rfl, _, hmoved⟩
    rw [moveAll_of_malformed, hmoved]
    rfl

end Connector

namespace Assembly

/-- A component stands under a rotation without an angle, of its own or of an ancestor. -/
def Unturned (a : Assembly) (id : ComponentId) : Prop := ∃ step ∈ a.history id, step.Malformed

variable {a : Assembly}

/-- The anchors of such a component cannot be found. -/
theorem anchor_fails_of_unturned [Trigonometry] {id : ComponentId} (h : a.Unturned id)
    (anchor : Anchor) : ∃ e, a.anchor id anchor = .error e := by
  cases hresult : a.anchor id anchor with
  | error e => exact ⟨e, rfl⟩
  | ok found =>
      exfalso
      unfold Assembly.anchor at hresult
      rcases Except.bind_eq_ok_iff.mp hresult with ⟨c, _, hshape⟩
      split at hshape
      · cases hshape
      rcases Except.bind_eq_ok_iff.mp hshape with ⟨seat?, _, hseat⟩
      cases seat? with
      | none => cases hseat
      | some seat =>
          rcases seat.moveAll_fails_of_malformed h with ⟨e, he⟩
          rw [Except.mapError_eq_ok_iff, carry, he] at hseat
          cases hseat

/-- A body that shows components holds the transformations that they stand under. -/
theorem Traces.mem_wrappers_iff {body : Body} {ids : List ComponentId} (h : a.Traces [body] ids)
    {step : Transformation} : step ∈ body.wrappers ↔ ∃ id ∈ ids, step ∈ a.history id := by
  rcases h with ⟨hleaves, hmoves⟩
  rw [List.flatMap_singleton] at hleaves
  rw [Body.wrappers_eq_flatMap body (hmoves body (List.mem_singleton.mpr rfl)), List.mem_flatMap]
  constructor
  · rintro ⟨leaf, hleaf, hstep⟩
    rcases exists_of_mem_right hleaves.flip hleaf with ⟨id, hid, c, shape, _, _, rfl⟩
    exact ⟨id, hid, hstep⟩
  · rintro ⟨id, hid, hstep⟩
    rcases exists_of_mem_right hleaves hid with ⟨leaf, hleaf, c, shape, _, _, rfl⟩
    exact ⟨_, hleaf, hstep⟩

namespace Reachable

/-- Whether there is a body is up to what is there to make it from, and to no history: the first
    part says that it fails for a bare component only. So a body holds rotations without an angle
    exactly if a component is shown in it that stands under one.

    Connectors are more particular. Such a component has no anchors any more, and no connector
    survives what it stands under. If a connector fails for want of an angle, then the first
    rotation that has none is to blame, and no movement before it has failed. -/
theorem body_malformed [Trigonometry] (h : a.Reachable) {id : ComponentId}
    (hid : a.contains id = true) :
    (∀ e, a.body id = .error e →
      ∃ bare c, e = .noBody bare ∧ a.Reaches id bare ∧ a.get? bare = some c ∧ c.Bare) ∧
    (∀ body, a.body id = .ok body → ((∃ step ∈ body.wrappers, step.Malformed) ↔
      ∃ shown ∈ a.walk id, a.Unturned shown)) ∧
    (∀ shown, a.Unturned shown → ∀ anchor, ∃ e, a.anchor shown anchor = .error e) ∧
    (∀ shown, a.Unturned shown → ∀ c : Connector, ∃ e, a.carry shown c = .error e) ∧
    ∀ shown (c : Connector) pole, a.carry shown c = .error (.missingAngle pole) ↔
      ∃ before rest moved, a.history shown = before ++ .rotate ⟨none, pole⟩ :: rest ∧
        (∀ step ∈ before, ¬ step.Malformed) ∧ c.moveAll before = .ok moved := by
  have hwf := h.wellFormed
  refine ⟨fun e he => ?_, fun body hbody => ?_, fun shown hshown anchor => ?_,
    fun shown hshown c => ?_, fun shown c pole => ?_⟩
  · rcases (hwf.meets_body hid).eq_error_iff.mp he with ⟨bare, hfind, rfl⟩
    have hreach := hwf.mem_tour_iff.mp (List.mem_of_find?_eq_some hfind)
    rcases get?_of_contains (hwf.contains_of_reaches hid hreach) with ⟨c, hc⟩
    exact ⟨bare, c, rfl, hreach, hc, (isBare_of_get? hc).mp (List.find?_some hfind)⟩
  · -- The steps around what is shown are its history, and nothing is left out of it.
    have htraces := bodyWithin_traces a (a.size + 1) id body hbody
    constructor
    · rintro ⟨step, hstep, hmalformed⟩
      rcases htraces.mem_wrappers_iff.mp hstep with ⟨shown, hshown, hhistory⟩
      exact ⟨shown, hshown, step, hhistory, hmalformed⟩
    · rintro ⟨shown, hshown, step, hhistory, hmalformed⟩
      exact ⟨step, htraces.mem_wrappers_iff.mpr ⟨shown, hshown, hhistory⟩, hmalformed⟩
  · exact anchor_fails_of_unturned hshown anchor
  · exact c.moveAll_fails_of_malformed hshown
  · exact c.moveAll_eq_missingAngle_iff _ pole

/-- A ball that is moved aside and rotated by nothing in particular, in the body of what it belongs
    to. -/
theorem body_malformed_ball :
    let aside : Transformation := .translate ⟨1, 0, 0⟩
    let twist : Transformation := .rotate ⟨none, none⟩
    let a : Assembly := ⟨#[
      { parent := some ⟨2⟩, shape := some (.sphere 1), direct := [aside] },
      { children := [⟨1⟩], direct := [twist] }]⟩
    a.Reachable ∧ a.contains ⟨2⟩ = true ∧ a.Unturned ⟨1⟩ ∧
      (∃ body, a.body ⟨2⟩ = .ok body ∧ ∃ step ∈ body.wrappers, step.Malformed) ∧
      (∃ e, a.anchor ⟨1⟩ .center = .error e) ∧
      a.carry ⟨1⟩ .world = .error (.missingAngle none) := by
  intro aside twist a
  have h : a.Reachable :=
    (((Reachable.empty.step (.add (.sphere 1))).step (.transformOne ⟨1⟩ aside)).step
      (.create { children := [⟨1⟩] })).step (.transform ⟨2⟩ [twist])
  have hhistory : a.history ⟨1⟩ = [aside] ++ twist :: [] := rfl
  have hunturned : a.Unturned ⟨1⟩ := by
    rw [Unturned, hhistory]
    exact ⟨twist, by decide, rfl⟩
  rcases h.body_malformed (show a.contains ⟨2⟩ = true from rfl) with
    ⟨_, hbody, hanchor, _, hcarry⟩
  have haside : Connector.world.moveAll [aside] = .ok ⟨⟨1, 0, 0⟩, .axisZ, .axisX⟩ := by
    decide +kernel
  have hmalformed := (hbody _ rfl).mpr ⟨⟨1⟩, by decide, hunturned⟩
  refine ⟨h, rfl, hunturned, ⟨_, rfl, hmalformed⟩, hanchor ⟨1⟩ hunturned .center, ?_⟩
  exact (hcarry ⟨1⟩ .world none).mpr ⟨[aside], [], _, hhistory, by decide, haside⟩

/-- A ball that is rotated by nothing in particular. -/
theorem body_lets_malformed_through : ¬ ∀ (a : Assembly) (id : ComponentId) (body : Body),
    a.Reachable → a.body id = .ok body → ∀ step ∈ body.wrappers, ¬ step.Malformed := by
  intro hclean
  have hball := Reachable.empty.step (.add (.sphere 1))
  have h := hball.step (.transformOne ⟨1⟩ (.rotate ⟨none, none⟩))
  exact hclean _ ⟨1⟩ _ h rfl (.rotate ⟨none, none⟩) (List.mem_singleton.mpr rfl) rfl

end Reachable

end Assembly

end SolidModel
