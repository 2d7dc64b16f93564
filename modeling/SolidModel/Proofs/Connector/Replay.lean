import SolidModel.Proofs.Connector.Landing
import SolidModel.Proofs.Vec3.Failures

/-!
# Replaying an Alignment

The steps that an alignment hands out, against the working copy that it finds them on.

An alignment is computed on a copy of the connector that takes each turn as soon as it is found. The
caller never sees the copy. What the caller gets is a list of steps, to be taken from the beginning
by somebody else, and there are eight shapes of that list, since each of the three stages may be
left out. What makes the list worth having is that it leads the caller through the very connectors
that the copy has been through: the second turn is found from the normal that the first one leaves,
and the offset is the difference to the point that both turns leave.

Nothing here depends on numbers. The two computations are the same operations in the same order, so
that they agree to the last bit, whatever the operations return.

`Connector.Stages` is the course of an alignment that succeeds. What is told on the way is a matter
of its own. Each step is told once and where it is found, and between the steps there is only talk
about the search for an axis.

## Main definitions

* `Connector.TurnsOnto`, `Connector.Rolls`: How a turn is chosen.
* `Connector.Stages`: The course of an alignment.
* `Connector.Replay`: What its steps are to somebody else.
* `Logged.TellsOnly`: What is told is of one kind.

## Theorems

* `Connector.align_eq_ok_iff`: An alignment succeeds if every stage does.
* `Connector.Stages.moveAll`: The turns lead the caller where they have led the working copy.
* `Connector.Stages.debug_events`: Each step is told once, in order.
* `Connector.Stages.eq_nil_iff`: There is nothing to do only where nothing is apart.
* `Connector.align_replays`: All of it about the steps that are handed out.
-/

namespace SolidModel

namespace Logged

variable {ε ε' α β : Type} {p : Event → Prop} {x : Logged ε α}

/-- All that is told on the way is of one kind. -/
def TellsOnly (p : Event → Prop) (x : Logged ε α) : Prop := ∀ event ∈ x.events, p event

namespace TellsOnly

theorem ofExcept (p : Event → Prop) (result : Except ε α) :
    TellsOnly p (Logged.ofExcept result) := by
  intro event hevent
  cases hevent

theorem bind {f : α → Logged ε β} (hx : TellsOnly p x) (hf : ∀ a, TellsOnly p (f a)) :
    TellsOnly p (x >>= f) := by
  intro event hevent
  cases hresult : x.result with
  | error e =>
      rw [bind_of_error hresult] at hevent
      exact hx event hevent
  | ok a =>
      rw [bind_of_ok hresult] at hevent
      rcases List.mem_append.mp hevent with hevent | hevent
      · exact hx event hevent
      · exact hf a event hevent

theorem map {f : α → β} (hx : TellsOnly p x) : TellsOnly p (f <$> x) := by
  rw [map_eq_pure_bind]
  exact hx.bind fun a => ofExcept p (.ok (f a))

/-- Nothing of another kind is told. -/
theorem filter_eq_nil {kind : Event → Bool} (hx : TellsOnly p x)
    (hkind : ∀ event, p event → ¬ kind event = true) : x.events.filter kind = [] :=
  List.filter_eq_nil_iff.mpr fun event hevent => hkind event (hx event hevent)

end TellsOnly

/-- What is told after a success follows what was told before. -/
theorem events_bind_of_ok {a : α} (h : x.result = .ok a) (f : α → Logged ε β) :
    (x >>= f).events = x.events ++ (f a).events := by
  rw [bind_of_ok h]

end Logged

namespace Trigonometry

/-- The functions of a platform at half a turn and at nothing else. -/
@[reducible]
def atHalfTurns : Trigonometry where
  sin radians := if radians < 0.0 then -1.2246467991473532e-16 else 1.2246467991473532e-16
  cos _ := -1.0
  acos _ := 3.141592653589793

end Trigonometry

namespace Vec3

theorem alignmentAxis_traces (fallback inclined reference : Vec3) :
    Logged.TellsOnly (·.level = .trace) (alignmentAxis fallback inclined reference) := by
  intro event hevent
  rcases alignmentAxis_cases fallback inclined reference with ⟨h, _⟩ | ⟨h, _⟩ | h
  · rw [h] at hevent
    cases hevent
  · rw [h, List.mem_singleton] at hevent
    rw [hevent]
    rfl
  · rw [h, List.mem_pair] at hevent
    rcases hevent with rfl | rfl <;> rfl

/-- The search for an axis is a matter of tracing. -/
theorem alignmentRotation_traces [Trigonometry] (fallback inclined reference : Vec3) :
    Logged.TellsOnly (·.level = .trace) (alignmentRotation fallback inclined reference) := by
  refine Logged.TellsOnly.bind (alignmentAxis_traces fallback inclined reference) fun axis => ?_
  exact Logged.TellsOnly.bind (Logged.TellsOnly.ofExcept _ _) fun angle =>
    Logged.TellsOnly.ofExcept _ (.ok (angle, axis))

end Vec3

namespace Connector

/-- A stage that is left out where two vectors are close succeeds with nothing there, and elsewhere
    with what is chosen. -/
theorem stage_eq_ok_iff {ε α : Type} {close : Bool} {choice : Except ε (Option α)}
    {chosen : α → Prop} (h : ∀ step?, choice = .ok step? ↔ ∃ step, step? = some step ∧ chosen step)
    {step? : Option α} : (if close = true then .ok none else choice) = .ok step? ↔
      (step? = none ↔ close = true) ∧ ∀ step ∈ step?, chosen step := by
  by_cases hclose : close = true
  · rw [if_pos hclose]
    constructor
    · intro hnone
      rw [← Except.ok.inj hnone]
      exact ⟨iff_of_true rfl hclose, fun step hstep => by cases hstep⟩
    · rintro ⟨hnone, _⟩
      rw [hnone.mpr hclose]
  · rw [if_neg hclose, h]
    constructor
    · rintro ⟨step, rfl, hstep⟩
      refine ⟨iff_of_false (Option.some_ne_none step) hclose, fun step' hstep' => ?_⟩
      rw [← Option.some.inj hstep']
      exact hstep
    · rintro ⟨hnone, hchosen⟩
      cases step? with
      | none => exact absurd (hnone.mp rfl) hclose
      | some step => exact ⟨step, rfl, hchosen step rfl⟩

variable {c target between w : Connector} {steps : List Transformation} {step : Transformation}
  {axisStep rollStep offsetStep : Option Transformation}

/-- The third stage: the offset to the target, unless the points are close. -/
theorem offsetStep?_eq_ok_iff : offsetStep? w target = .ok offsetStep ↔
    (offsetStep = none ↔ w.point.isClose target.point = true) ∧
      ∀ step ∈ offsetStep, (target.point - w.point).Valid ∧
        step = .translate (target.point - w.point) := by
  rw [offsetStep?]
  refine stage_eq_ok_iff fun step? => ?_
  unfold Vec3.checked
  by_cases hvalid : (target.point - w.point).magnitude.isNaN = true
  · rw [if_pos hvalid]
    refine iff_of_false (fun h => by cases h) ?_
    rintro ⟨step, _, hnot, _⟩
    exact Bool.false_ne_true (hnot.symm.trans hvalid)
  · rw [if_neg hvalid]
    constructor
    · intro h
      cases h
      exact ⟨_, rfl, Bool.eq_false_iff.mpr hvalid, rfl⟩
    · rintro ⟨step, rfl, _, rfl⟩
      rfl

/-- What is told of a step, if there is one. It is told at the level of debugging. -/
def told (source : Connector) (stage : AlignStage) (step? : Option Transformation) : List Event :=
  step?.toList.map (Event.alignStep source stage)

theorem tellStep_events (source : Connector) (stage : AlignStage) (step? : Option Transformation) :
    (tellStep source stage step?).events = told source stage step? := by
  cases step? <;> rfl

theorem filter_told (source : Connector) (stage : AlignStage) (step? : Option Transformation) :
    (told source stage step?).filter (fun event => event.level = .debug) =
      told source stage step? := by
  cases step? <;> rfl

section Course

variable [t : Trigonometry]

/-- A step is the turn that undoes the angle from a target direction back to a direction. -/
def TurnsOnto (vector goal : Vec3) (step : Transformation) : Prop :=
  ∃ angle pole, (Vec3.alignmentRotation vector goal).result = .ok (angle, pole) ∧
    step = .rotateAbout (-angle) pole

/-- A step is the turn that is chosen for a normal: half a circle about the axis of the target if
    the normals are opposite, and otherwise what turns the one onto the other. -/
def Rolls (normal : Vec3) (target : Connector) (step : Transformation) : Prop :=
  match normal.normal target.normal with
  | .error (.antiparallel ..) => step = .rotateAbout 180.0 target.axis
  | _ => TurnsOnto normal target.normal step

theorem TurnsOnto.rotates {vector goal : Vec3} (h : TurnsOnto vector goal step) :
    ∃ degrees pole, step = .rotateAbout degrees pole := by
  rcases h with ⟨angle, pole, _, rfl⟩
  exact ⟨-angle, pole, rfl⟩

theorem rolls_of_antiparallel {normal left right : Vec3}
    (h : normal.normal target.normal = .error (.antiparallel left right)) :
    Rolls normal target step ↔ step = .rotateAbout 180.0 target.axis := by
  simp only [Rolls, h]

theorem rolls_of_not_antiparallel {normal : Vec3}
    (h : ∀ left right, ¬ normal.normal target.normal = .error (.antiparallel left right)) :
    Rolls normal target step ↔ TurnsOnto normal target.normal step := by
  unfold Rolls
  split
  · next left right hnormal => exact absurd hnormal (h left right)
  · exact Iff.rfl

theorem Rolls.rotates {normal : Vec3} (h : Rolls normal target step) :
    ∃ degrees pole, step = .rotateAbout degrees pole := by
  unfold Rolls at h
  split at h
  · exact ⟨180.0, target.axis, h⟩
  · exact h.rotates

theorem turnOnto_eq_ok_iff {vector goal : Vec3} {step? : Option Transformation} :
    (some <$> turnOnto vector goal).result = .ok step? ↔
      ∃ step, step? = some step ∧ TurnsOnto vector goal step := by
  unfold turnOnto
  rw [map_eq_pure_bind, bind_assoc, Logged.bind_eq_ok_iff]
  constructor
  · rintro ⟨⟨angle, pole⟩, hrotation, h⟩
    cases h
    exact ⟨_, rfl, angle, pole, hrotation, rfl⟩
  · rintro ⟨_, rfl, angle, pole, hrotation, rfl⟩
    exact ⟨(angle, pole), hrotation, rfl⟩

/-- The first stage: a turn from the axis, unless the axes are close. -/
theorem axisStep?_eq_ok_iff : (axisStep? c target).result = .ok axisStep ↔
    (axisStep = none ↔ c.axis.isClose target.axis = true) ∧
      ∀ step ∈ axisStep, TurnsOnto c.axis target.axis step := by
  rw [axisStep?, apply_ite Logged.result]
  exact stage_eq_ok_iff fun _ => turnOnto_eq_ok_iff

/-- The second stage: a turn from the normal, unless the normals are close. -/
theorem rollStep?_eq_ok_iff : (rollStep? between target).result = .ok rollStep ↔
    (rollStep = none ↔ between.normal.isClose target.normal = true) ∧
      ∀ step ∈ rollStep, Rolls between.normal target step := by
  rw [rollStep?, apply_ite Logged.result]
  refine stage_eq_ok_iff fun step? => ?_
  -- Opposite normals are the one case in which the turn is not between the normals.
  split
  · next left right hnormal =>
      simp only [rolls_of_antiparallel hnormal, exists_eq_right]
      exact ⟨fun h => (Except.ok.inj h).symm, fun h => congrArg Except.ok h.symm⟩
  · next hnormal =>
      simp only [rolls_of_not_antiparallel hnormal]
      exact turnOnto_eq_ok_iff

/-- The course of an alignment that succeeds: what each stage has come to, and where the turns have
    led the working copy. -/
structure Stages (c target : Connector) (axisStep rollStep offsetStep : Option Transformation)
    (between w : Connector) : Prop where
  /-- The first stage, which is about the axes, has found this step or none. -/
  axis_found : (axisStep? c target).result = .ok axisStep
  /-- That step has led the working copy to `between`. -/
  axis_taken : c.moveAll axisStep.toList = .ok between
  /-- The second stage, which is about the normals, has looked at the copy as it was then. -/
  roll_found : (rollStep? between target).result = .ok rollStep
  /-- Its step has led the copy on to `w`. -/
  roll_taken : between.moveAll rollStep.toList = .ok w
  /-- The last stage, which is about the points, has looked at the copy after both turns. -/
  offset_found : offsetStep? w target = .ok offsetStep

/-- An alignment succeeds if every stage does, and its steps are those of the stages. What a stage
    has come to and where it leads can be told from the success alone. -/
theorem align_eq_ok_iff : (c.align target).result = .ok steps ↔
    ∃ axisStep rollStep offsetStep between w,
      Stages c target axisStep rollStep offsetStep between w ∧
      steps = axisStep.toList ++ rollStep.toList ++ offsetStep.toList := by
  unfold align
  simp only [Logged.bind_eq_ok_iff, takeStep_result, tellStep_result, Logged.ofExcept_result,
    Logged.mapError, Except.mapError_eq_ok_iff]
  constructor
  · rintro ⟨axisStep, haxis, between, hbetween, rollStep, hroll, w, hw, offsetStep, hoffset, _, _,
      h⟩
    cases h
    exact ⟨axisStep, rollStep, offsetStep, between, w, ⟨haxis, hbetween, hroll, hw, hoffset⟩, rfl⟩
  · rintro ⟨axisStep, rollStep, offsetStep, between, w, h, rfl⟩
    exact ⟨axisStep, h.axis_found, between, h.axis_taken, rollStep, h.roll_found, w, h.roll_taken,
      offsetStep, h.offset_found, (), trivial, rfl⟩

theorem turnOnto_traces (vector goal : Vec3) :
    Logged.TellsOnly (·.level = .trace) (some <$> turnOnto vector goal) := by
  refine Logged.TellsOnly.map
    (Logged.TellsOnly.bind ?_ fun turn => Logged.TellsOnly.ofExcept _ (.ok _))
  exact Vec3.alignmentRotation_traces vector goal vector

/-- While a turn is being found, there is only talk about the search for its axis. -/
theorem axisStep?_traces (c target : Connector) :
    Logged.TellsOnly (·.level = .trace) (axisStep? c target) := by
  unfold axisStep?
  split
  · exact Logged.TellsOnly.ofExcept _ (.ok none)
  · exact turnOnto_traces _ _

theorem rollStep?_traces (between target : Connector) :
    Logged.TellsOnly (·.level = .trace) (rollStep? between target) := by
  unfold rollStep?
  split
  · exact Logged.TellsOnly.ofExcept _ (.ok none)
  · split
    · exact Logged.TellsOnly.ofExcept _ (.ok _)
    · exact turnOnto_traces _ _

theorem takeStep_events (source working : Connector) (stage : AlignStage)
    (step? : Option Transformation) :
    (takeStep source working stage step?).events = told source stage step? := by
  cases step? <;> rfl

namespace Stages

/-- The turns lead the caller where they have led the working copy. -/
theorem moveAll (h : Stages c target axisStep rollStep offsetStep between w) :
    c.moveAll (axisStep.toList ++ rollStep.toList) = .ok w := by
  rw [moveAll_append, h.axis_taken]
  exact h.roll_taken

/-- All that is told on the way, stage by stage. -/
theorem events (h : Stages c target axisStep rollStep offsetStep between w) :
    (c.align target).events = (axisStep? c target).events ++ (told c .axis axisStep ++
      ((rollStep? between target).events ++
        (told c .roll rollStep ++ told c .offset offsetStep))) := by
  have haxis : ((axisStep? c target).mapError PlacementError.degenerate).result = .ok axisStep :=
    Except.mapError_eq_ok_iff.mpr h.axis_found
  have hbetween : (takeStep c c .axis axisStep).result = .ok between := by
    rw [takeStep_result, h.axis_taken]
  have hroll :
      ((rollStep? between target).mapError PlacementError.degenerate).result = .ok rollStep :=
    Except.mapError_eq_ok_iff.mpr h.roll_found
  have hw : (takeStep c between .roll rollStep).result = .ok w := by
    rw [takeStep_result, h.roll_taken]
  have hoffset :
      (Logged.ofExcept ((offsetStep? w target).mapError PlacementError.degenerate)).result =
        .ok offsetStep :=
    Except.mapError_eq_ok_iff.mpr h.offset_found
  -- No part fails, so what is told is what the parts tell, in order.
  unfold align
  rw [Logged.events_bind_of_ok haxis, Logged.events_bind_of_ok hbetween,
    Logged.events_bind_of_ok hroll, Logged.events_bind_of_ok hw, Logged.events_bind_of_ok hoffset,
    Logged.events_bind_of_ok (tellStep_result c .offset offsetStep),
    takeStep_events, takeStep_events, tellStep_events]
  simp only [Logged.mapError, Logged.ofExcept, List.nil_append]
  rw [show (pure (axisStep.toList ++ rollStep.toList ++ offsetStep.toList) :
    Logged PlacementError (List Transformation)).events = [] from rfl, List.append_nil]

/-- Each step is told once, and nothing else is told at that level. -/
theorem debug_events (h : Stages c target axisStep rollStep offsetStep between w) :
    (c.align target).events.filter (fun event => event.level = .debug) =
      told c .axis axisStep ++ told c .roll rollStep ++ told c .offset offsetStep := by
  -- What is told about the search for an axis is told at another level.
  have htrace : ∀ event : Event, event.level = .trace → ¬ decide (event.level = .debug) = true := by
    intro event hlevel
    rw [hlevel]
    decide
  rw [h.events, List.filter_append, List.filter_append, List.filter_append, List.filter_append,
    (axisStep?_traces c target).filter_eq_nil htrace, filter_told,
    (rollStep?_traces between target).filter_eq_nil htrace, filter_told, filter_told,
    List.nil_append, List.nil_append, List.append_assoc]

/-- There is nothing to do exactly if nothing is apart. Without turns the working copy is where the
    connector is, so that the points and normals in question are those it started with. -/
theorem eq_nil_iff (h : Stages c target axisStep rollStep offsetStep between w) :
    axisStep.toList ++ rollStep.toList ++ offsetStep.toList = [] ↔
      c.axis.isClose target.axis = true ∧ c.normal.isClose target.normal = true ∧
        c.point.isClose target.point = true := by
  have haxis := (axisStep?_eq_ok_iff.mp h.axis_found).1
  have hroll := (rollStep?_eq_ok_iff.mp h.roll_found).1
  have hoffset := (offsetStep?_eq_ok_iff.mp h.offset_found).1
  -- A turn that is left out leaves the working copy where it is.
  have hstays : axisStep = none → between = c := by
    intro hnone
    have htaken := h.axis_taken
    rw [hnone] at htaken
    exact (Except.ok.inj htaken).symm
  have hrests : rollStep = none → w = between := by
    intro hnone
    have htaken := h.roll_taken
    rw [hnone] at htaken
    exact (Except.ok.inj htaken).symm
  simp only [List.append_eq_nil_iff, Option.toList_eq_nil_iff]
  constructor
  · rintro ⟨⟨hnoAxis, hnoRoll⟩, hnoOffset⟩
    have hbetween := hstays hnoAxis
    have hw := (hrests hnoRoll).trans hbetween
    rw [hbetween] at hroll
    rw [hw] at hoffset
    exact ⟨haxis.mp hnoAxis, hroll.mp hnoRoll, hoffset.mp hnoOffset⟩
  · rintro ⟨hcloseAxis, hcloseNormal, hclosePoint⟩
    have hnoAxis := haxis.mpr hcloseAxis
    have hbetween := hstays hnoAxis
    rw [hbetween] at hroll
    have hnoRoll := hroll.mpr hcloseNormal
    have hw := (hrests hnoRoll).trans hbetween
    rw [hw] at hoffset
    exact ⟨⟨hnoAxis, hnoRoll⟩, hoffset.mpr hclosePoint⟩

end Stages

/-- The steps of an alignment, taken from the beginning by somebody else. There are up to two turns,
    the first to the connector `between` and both to the connector `w`, and up to one offset. -/
structure Replay (c target : Connector) (steps : List Transformation)
    (axisStep rollStep offsetStep : Option Transformation) (between w : Connector) : Prop where
  /-- The steps that are handed out are those of the stages, in order. -/
  steps_eq : steps = axisStep.toList ++ rollStep.toList ++ offsetStep.toList
  /-- The first two stages hand out turns by one angle about a pole that is given. -/
  turns : ∀ step ∈ axisStep.toList ++ rollStep.toList,
    ∃ degrees pole, step = .rotateAbout degrees pole
  /-- The first turn can be taken and leads to the connector `between`. -/
  first_taken : c.moveAll axisStep.toList = .ok between
  /-- Both turns can be taken and lead to the connector `w`. -/
  both_taken : c.moveAll (axisStep.toList ++ rollStep.toList) = .ok w
  /-- There is no first turn exactly if the axes were close to begin with. -/
  axis_iff : axisStep = none ↔ c.axis.isClose target.axis = true
  /-- There is no second turn exactly if the normals are close after the first. -/
  roll_iff : rollStep = none ↔ between.normal.isClose target.normal = true
  /-- There is no offset exactly if the points are close after both. -/
  offset_iff : offsetStep = none ↔ w.point.isClose target.point = true
  /-- The offset is the difference of the points, component by component, as computed from `w`. -/
  offset_eq : ∀ step ∈ offsetStep, step = .translate ⟨target.point.x - w.point.x,
    target.point.y - w.point.y, target.point.z - w.point.z⟩
  /-- Nothing is handed out exactly if the connectors were close to begin with. -/
  nil_iff : steps = [] ↔ c.axis.isClose target.axis = true ∧ c.normal.isClose target.normal = true ∧
    c.point.isClose target.point = true
  /-- If there are two turns, the first is chosen from the axes, and the second from the normal as
      it is after the first. -/
  chosen : ∀ first ∈ axisStep, ∀ second ∈ rollStep, TurnsOnto c.axis target.axis first ∧
    Rolls between.normal target second
  /-- Each step has been told of once, in order and at the level of debugging, and nothing else has
      been told of at that level. -/
  told_once : (c.align target).events.filter (fun event => event.level = .debug) =
    told c .axis axisStep ++ told c .roll rollStep ++ told c .offset offsetStep

/-- The steps that an alignment hands out lead to where its working copy has been.

    For every alignment that succeeds there are a first turn, a second turn and an offset, each of
    which may be left out, and two connectors: `between`, where the first turn leads, and `w`, where
    both do. `Replay` says what they have to do with each other. The list consists of those steps in
    that order, each stage is left out exactly if there is nothing to do in it, the second turn is
    chosen from `between` and the offset is the difference to `w`, and each step is told once.
    Somebody else who takes the steps from the beginning passes through the same two connectors, to
    the last bit, whatever the operations on numbers return. -/
theorem align_replays (h : (c.align target).result = .ok steps) :
    ∃ axisStep rollStep offsetStep between w,
      Replay c target steps axisStep rollStep offsetStep between w := by
  rcases align_eq_ok_iff.mp h with ⟨axisStep, rollStep, offsetStep, between, w, hstages, rfl⟩
  rcases axisStep?_eq_ok_iff.mp hstages.axis_found with ⟨haxis, hturns⟩
  rcases rollStep?_eq_ok_iff.mp hstages.roll_found with ⟨hroll, hrolls⟩
  rcases offsetStep?_eq_ok_iff.mp hstages.offset_found with ⟨hoffset, htranslates⟩
  refine ⟨axisStep, rollStep, offsetStep, between, w, ?_⟩
  refine
    { steps_eq := rfl
      turns := ?_
      first_taken := hstages.axis_taken
      both_taken := hstages.moveAll
      axis_iff := haxis
      roll_iff := hroll
      offset_iff := hoffset
      offset_eq := fun step hstep => (htranslates step hstep).2
      nil_iff := hstages.eq_nil_iff
      chosen := fun first hfirst second hsecond => ⟨hturns first hfirst, hrolls second hsecond⟩
      told_once := hstages.debug_events }
  intro step hstep
  rcases List.mem_append.mp hstep with hstep | hstep
  · exact (hturns step (Option.mem_toList.mp hstep)).rotates
  · exact (hrolls step (Option.mem_toList.mp hstep)).rotates

end Course

/-- From the world to a connector that looks down at it. The turn of the axis turns the normal away
    as well, so that the second turn is needed for what the first one has done. -/
theorem align_replays_opposite :
    let target : Connector := ⟨⟨1, 0, 1⟩, ⟨0, 0, -1⟩, .axisX⟩
    let steps : List Transformation := [.rotateAbout (-180) .axisY, .rotateAbout 180 ⟨0, 0, -1⟩,
      .translate ⟨1, 0, 1⟩]
    (@align Trigonometry.atHalfTurns world target).result = .ok steps ∧
      ∃ axisStep rollStep offsetStep between w,
        @Replay Trigonometry.atHalfTurns world target steps axisStep rollStep offsetStep
          between w := by
  intro target steps
  have halign : (@align Trigonometry.atHalfTurns world target).result = .ok steps := by
    decide +kernel
  exact ⟨halign, align_replays (t := Trigonometry.atHalfTurns) halign⟩

end Connector

end SolidModel
