import SolidModel.Proofs.Assembly.Reachable
import SolidModel.Proofs.Connector.Replay
import SolidModel.Proofs.Vec3.Checked

/-!
# Connectors Stay Valid

No movement leads from a connector whose vectors have lengths to one in which something is no
number.

A movement makes some vectors anew and leaves others alone. What it makes anew is checked, and what
it leaves alone was valid before. So one movement keeps a connector valid or fails, and by induction
so does any list of them, whatever the movements are given by. An offset may be infinite, an angle
may be no number, and the pole of a rotation may have no length: the movement fails then, and it
tells of the vector that came out of it.

The same holds wherever connectors come from. One that is made from an axis and a roll is made of
checked vectors, and the anchors of a shape are. And it holds of what an alignment hands out. Its
poles and its offset are checked where they are found, with one exception: half a turn is about the
axis of the target, which has to be valid for that.

## Main definitions

* `Transformation.Valid`: The vectors that a transformation is given by have lengths.
* `PlacementError.Blamed`: A movement has failed for a vector that has none, or for want of an
  angle.

## Theorems

* `Connector.move_delivers`: One movement keeps a connector valid.
* `Connector.moveAll_delivers`: So does any number of them.
* `Connector.moveAll_failsOnly_blamed`: They do not fail without need.
* `Connector.ofAxis_delivers`, `Shape.anchor_delivers`: Where connectors come from.
* `Connector.align_delivers`: The steps of an alignment.
* `Connector.stays_valid`: All of it, and the anchors of components.
-/

namespace SolidModel

/-- The vectors that a transformation is given by have lengths that are numbers. -/
def Transformation.Valid : Transformation → Prop
  | .translate offset => offset.Valid
  | .rotate rotation => ∀ pole ∈ rotation.pole, pole.Valid
  | .scale factor => factor.Valid

/-- A movement has failed for a vector whose length is no number, or for want of an angle. -/
inductive PlacementError.Blamed : PlacementError → Prop
  | missingAngle (pole : Option Vec3) : Blamed (.missingAngle pole)
  | degenerate {cause : Degeneracy} (undefined : cause.Undefined) : Blamed (.degenerate cause)

theorem Transformation.valid_rotateAbout {degrees : Float} {pole : Vec3} (h : pole.Valid) :
    (rotateAbout degrees pole).Valid := by
  intro other hother
  rw [← Option.some.inj hother]
  exact h

namespace Connector

theorem world_valid : world.Valid := by
  unfold Valid Vec3.Valid
  decide +kernel

theorem withPoint_delivers {c : Connector} (h : c.Valid) (point : Vec3) :
    Except.Delivers Valid (c.withPoint point) := by
  unfold withPoint
  exact (Vec3.checked_delivers point).bind fun point hpoint =>
    Except.Delivers.ok ⟨hpoint, h.2.1, h.2.2⟩

theorem withPoint_failsOnly_undefined (c : Connector) (point : Vec3) :
    Except.FailsOnly Degeneracy.Undefined (c.withPoint point) := by
  unfold withPoint
  exact (Vec3.checked_failsOnly_undefined point).bind fun point _ => Except.FailsOnly.ok _ _

section Moving

variable [Trigonometry]

/-- A turn makes all three vectors anew, so that it does not matter what they were. -/
theorem rotateAbout_delivers (c : Connector) (degrees : Float) (pole : Vec3) :
    Except.Delivers Valid (c.rotateAbout degrees pole) := by
  intro w h
  rcases rotateAbout_eq_ok_iff.mp h with ⟨hpoint, haxis, hnormal⟩
  refine ⟨?_, ?_, ?_⟩
  · exact Vec3.rotate_delivers c.point degrees pole _ hpoint
  · exact Vec3.rotate_delivers c.axis degrees pole _ haxis
  · exact Vec3.rotate_delivers c.normal degrees pole _ hnormal

theorem rotateAbout_failsOnly_undefined (c : Connector) (degrees : Float) (pole : Vec3) :
    Except.FailsOnly Degeneracy.Undefined (c.rotateAbout degrees pole) := by
  unfold rotateAbout
  refine (Vec3.rotate_failsOnly_undefined c.point degrees pole).bind fun point _ => ?_
  refine (Vec3.rotate_failsOnly_undefined c.axis degrees pole).bind fun axis _ => ?_
  refine (Vec3.rotate_failsOnly_undefined c.normal degrees pole).bind fun normal _ => ?_
  exact Except.FailsOnly.ok _ _

theorem rotateEuler_delivers (c : Connector) (degrees : Vec3) :
    Except.Delivers Valid (c.rotateEuler degrees) := by
  unfold rotateEuler
  refine Except.Delivers.bind_any fun turned => Except.Delivers.bind_any fun turned => ?_
  exact rotateAbout_delivers turned degrees.z .axisZ

theorem rotateEuler_failsOnly_undefined (c : Connector) (degrees : Vec3) :
    Except.FailsOnly Degeneracy.Undefined (c.rotateEuler degrees) := by
  unfold rotateEuler
  refine (rotateAbout_failsOnly_undefined c degrees.x .axisX).bind fun turned _ => ?_
  refine (rotateAbout_failsOnly_undefined turned degrees.y .axisY).bind fun turned _ => ?_
  exact rotateAbout_failsOnly_undefined turned degrees.z .axisZ

/-- In each of its forms a rotation ends with a turn of all three vectors. -/
theorem rotate_delivers (c : Connector) (rotation : Rotation) :
    Except.Delivers Valid (c.rotate rotation) := by
  unfold rotate
  split
  · exact Except.Delivers.error _ _
  · exact (rotateEuler_delivers c _).mapError _
  · exact (rotateAbout_delivers c _ _).mapError _
  · exact Except.Delivers.mapError (Except.Delivers.bind_any fun unit =>
      rotateAbout_delivers c _ unit) _

theorem rotate_failsOnly_blamed (c : Connector) (rotation : Rotation) :
    Except.FailsOnly PlacementError.Blamed (c.rotate rotation) := by
  have hdegenerate : ∀ cause : Degeneracy, cause.Undefined →
      (PlacementError.degenerate cause).Blamed := fun _ => .degenerate
  unfold rotate
  split
  · exact Except.FailsOnly.error (.missingAngle _)
  · exact (rotateEuler_failsOnly_undefined c _).mapError hdegenerate
  · exact (rotateAbout_failsOnly_undefined c _ _).mapError hdegenerate
  · refine Except.FailsOnly.mapError ?_ hdegenerate
    exact (Vec3.normalized_failsOnly_undefined _).bind fun unit _ =>
      rotateAbout_failsOnly_undefined c _ unit

/-- One movement keeps a connector valid, or it fails. -/
theorem move_delivers {c : Connector} (h : c.Valid) (step : Transformation) :
    Except.Delivers Valid (c.move step) := by
  cases step with
  | translate offset => exact (withPoint_delivers h _).mapError _
  | rotate rotation => exact rotate_delivers c rotation
  | scale factor => exact (withPoint_delivers h _).mapError _

theorem move_failsOnly_blamed (c : Connector) (step : Transformation) :
    Except.FailsOnly PlacementError.Blamed (c.move step) := by
  cases step with
  | translate offset =>
      exact (withPoint_failsOnly_undefined c _).mapError fun _ => .degenerate
  | rotate rotation => exact rotate_failsOnly_blamed c rotation
  | scale factor =>
      exact (withPoint_failsOnly_undefined c _).mapError fun _ => .degenerate

/-- Any number of movements keeps a connector valid, or one of them fails. -/
theorem moveAll_delivers {c : Connector} (h : c.Valid) (steps : List Transformation) :
    Except.Delivers Valid (c.moveAll steps) := by
  induction steps generalizing c with
  | nil => exact Except.Delivers.ok h
  | cons step rest ih => exact (move_delivers h step).bind fun moved hmoved => ih hmoved

/-- The first movement that fails has a vector to tell of, or no angle. So movements do not fail for
    anything else, and not at all where vectors have lengths and rotations have angles. -/
theorem moveAll_failsOnly_blamed (c : Connector) (steps : List Transformation) :
    Except.FailsOnly PlacementError.Blamed (c.moveAll steps) := by
  induction steps generalizing c with
  | nil => exact Except.FailsOnly.ok _ c
  | cons step rest ih => exact (move_failsOnly_blamed c step).bind fun moved _ => ih moved

theorem ofAxis_delivers (point axis : Vec3) (roll : Float) :
    Except.Delivers Valid (ofAxis point axis roll).result := by
  unfold ofAxis
  simp only [Logged.bind_result]
  have hdirection : Except.Delivers Vec3.Valid (axis.checked.bind Vec3.normalized) :=
    Except.Delivers.bind_any fun axis => Vec3.normalized_delivers axis
  refine hdirection.bind fun direction hdirection => Except.Delivers.bind_any fun rolled => ?_
  refine (Vec3.rotateToAlignment_delivers rolled .axisZ direction).bind fun normal hnormal => ?_
  exact (Vec3.checked_delivers point).bind fun point hpoint =>
    Except.Delivers.ok ⟨hpoint, hdirection, hnormal⟩

theorem TurnsOnto.valid {vector goal : Vec3} {step : Transformation}
    (h : TurnsOnto vector goal step) : step.Valid := by
  rcases h with ⟨angle, pole, hrotation, rfl⟩
  have hpole : pole.Valid :=
    Vec3.alignmentRotation_delivers vector goal vector (angle, pole) hrotation
  exact Transformation.valid_rotateAbout hpole

/-- Half a turn is about the axis of the target, which nobody checks. -/
theorem Rolls.valid {normal : Vec3} {target : Connector} {step : Transformation}
    (htarget : target.Valid) (h : Rolls normal target step) : step.Valid := by
  unfold Rolls at h
  split at h
  · rw [h]
    exact Transformation.valid_rotateAbout htarget.2.1
  · exact h.valid

/-- Poles and offsets in the steps of an alignment are valid if the target is. The working copy has
    been checked at every turn, and the axis of the target is the one pole that has not been made
    here. -/
theorem align_delivers (c : Connector) {target : Connector} (htarget : target.Valid) :
    Except.Delivers (fun steps => ∀ step ∈ steps, step.Valid) (c.align target).result := by
  intro steps h step hstep
  rcases align_eq_ok_iff.mp h with ⟨axisStep, rollStep, offsetStep, between, w, hstages, rfl⟩
  simp only [List.mem_append, Option.mem_toList] at hstep
  rcases hstep with (hstep | hstep) | hstep
  · exact ((axisStep?_eq_ok_iff.mp hstages.axis_found).2 step hstep).valid
  · exact ((rollStep?_eq_ok_iff.mp hstages.roll_found).2 step hstep).valid htarget
  · rcases (offsetStep?_eq_ok_iff.mp hstages.offset_found).2 step hstep with ⟨hoffset, rfl⟩
    exact hoffset

end Moving

end Connector

/-- The anchors of a shape differ in height only, and the height is checked. A measure that is no
    number makes it fail. -/
theorem Shape.anchor_delivers (shape : Shape) (anchor : Anchor) :
    Except.Delivers (fun seat? => ∀ seat ∈ seat?, Connector.Valid seat) (shape.anchor anchor) := by
  have hfrustum : ∀ f : Frustum, Except.Delivers (fun seat? => ∀ seat ∈ seat?, Connector.Valid seat)
      ((f.anchor anchor).map some) := by
    intro f
    have hseat : Except.Delivers Connector.Valid (f.anchor anchor) := by
      unfold Frustum.anchor
      exact (Vec3.checked_delivers _).bind fun point hpoint =>
        Except.Delivers.ok ⟨hpoint, Connector.world_valid.2⟩
    refine hseat.map fun seat hseat other hother => ?_
    rw [← Option.some.inj hother]
    exact hseat
  cases shape with
  | frustum f => exact hfrustum f
  | cylinder f => exact hfrustum f
  | cone f => exact hfrustum f
  | sphere diameter =>
      have hnone : Except.Delivers (fun seat? => ∀ seat ∈ seat?, Connector.Valid seat)
          (.ok none : Except Degeneracy (Option Connector)) := by
        refine Except.Delivers.ok fun seat hseat => ?_
        cases hseat
      cases anchor with
      | top => exact hnone
      | bottom => exact hnone
      | center =>
          refine Except.Delivers.ok fun seat hseat => ?_
          rw [← Option.some.inj hseat]
          exact Connector.world_valid

/-- Wherever a component stands, its anchors are valid. -/
theorem Assembly.anchor_delivers [Trigonometry] (a : Assembly) (id : ComponentId)
    (anchor : Anchor) :
    Except.Delivers Connector.Valid (a.anchor id anchor) := by
  unfold Assembly.anchor
  refine Except.Delivers.bind_any fun c => ?_
  split
  · exact Except.Delivers.error _ _
  · next shape _ =>
      refine ((shape.anchor_delivers anchor).mapError _).bind fun seat? hseat => ?_
      cases seat? with
      | none => exact Except.Delivers.error _ _
      | some seat => exact (Connector.moveAll_delivers (hseat seat rfl) _).mapError _

namespace Connector

/-- A connector whose vectors have lengths keeps them through any list of movements, or one of the
    movements fails for a vector that has no length or for want of an angle. The movements
    themselves may be given by anything.

    To build a connector, or to turn it, is to check its vectors. The poles and the offset that lead
    to a valid connector are valid. And so are the anchors of the components of a reachable
    assembly, whatever they stand under. -/
theorem stays_valid [Trigonometry] :
    (∀ (c : Connector) (steps : List Transformation), c.Valid →
      Except.Delivers Valid (c.moveAll steps) ∧
        Except.FailsOnly PlacementError.Blamed (c.moveAll steps)) ∧
    (∀ (point axis : Vec3) (roll : Float),
      Except.Delivers Valid (ofAxis point axis roll).result) ∧
    (∀ (c : Connector) (degrees : Float) (pole : Vec3), c.Valid →
      Except.Delivers Valid (c.rotateAbout degrees pole) ∧
        Except.FailsOnly Degeneracy.Undefined (c.rotateAbout degrees pole)) ∧
    (∀ c target : Connector, c.Valid → target.Valid →
      Except.Delivers (fun steps => ∀ step ∈ steps, step.Valid) (c.align target).result) ∧
    ∀ a : Assembly, a.Reachable → ∀ (id : ComponentId) (anchor : Anchor),
      Except.Delivers Valid (a.anchor id anchor) := by
  refine ⟨fun c steps hc => ⟨?_, ?_⟩, ofAxis_delivers, fun c degrees pole _ => ⟨?_, ?_⟩, ?_, ?_⟩
  · exact moveAll_delivers hc steps
  · exact moveAll_failsOnly_blamed c steps
  · exact rotateAbout_delivers c degrees pole
  · exact rotateAbout_failsOnly_undefined c degrees pole
  · exact fun c target _ htarget => align_delivers c htarget
  · exact fun a _ => a.anchor_delivers

/-- An offset without end leads to a connector that is valid, and no turn leads on from there. An
    alignment that turns twice, and a component that is further away than any number. -/
theorem stays_valid_infinite :
    let steps : List Transformation := [.translate ⟨1 / 0, 0, 0⟩]
    let turn : List Transformation := [.rotateAbout 180 .axisY]
    let away : Connector := ⟨⟨1 / 0, 0, 0⟩, .axisZ, .axisX⟩
    let target : Connector := ⟨⟨1, 0, 1⟩, ⟨0, 0, -1⟩, .axisX⟩
    let found : List Transformation := [.rotateAbout (-180) .axisY, .rotateAbout 180 ⟨0, 0, -1⟩,
      .translate ⟨1, 0, 1⟩]
    let a : Assembly := ⟨#[{ shape := some (.sphere 1), direct := steps }]⟩
    world.Valid ∧ (@moveAll Trigonometry.atHalfTurns world steps = .ok away ∧ away.Valid) ∧
      (∃ e, @moveAll Trigonometry.atHalfTurns away turn = .error e ∧ e.Blamed) ∧
      (target.Valid ∧ (@align Trigonometry.atHalfTurns world target).result = .ok found ∧
        ∀ step ∈ found, step.Valid) ∧
      a.Reachable ∧ @Assembly.anchor Trigonometry.atHalfTurns a ⟨1⟩ .center = .ok away := by
  intro steps turn away target found a
  rcases @stays_valid Trigonometry.atHalfTurns with ⟨hmove, _, _, halign, hanchor⟩
  have haway : @moveAll Trigonometry.atHalfTurns world steps = .ok away := by decide +kernel
  have hturn : (@moveAll Trigonometry.atHalfTurns away turn).isOk = false := by decide +kernel
  have htarget : target.Valid := by
    unfold Valid Vec3.Valid
    decide +kernel
  have hfound : (@align Trigonometry.atHalfTurns world target).result = .ok found := by
    decide +kernel
  have ha : a.Reachable := by
    have h := (Assembly.Reachable.empty.step (.add (.sphere 1))).step (.transform ⟨1⟩ steps)
    exact h
  have hplace : @Assembly.anchor Trigonometry.atHalfTurns a ⟨1⟩ .center = .ok away := by
    decide +kernel
  have hvalid : away.Valid := hanchor a ha ⟨1⟩ .center away hplace
  refine ⟨world_valid, ⟨haway, (hmove world steps world_valid).1 away haway⟩, ?_,
    ⟨htarget, hfound, halign world target world_valid htarget found hfound⟩, ha, hplace⟩
  cases hresult : @moveAll Trigonometry.atHalfTurns away turn with
  | error e => exact ⟨e, rfl, (hmove away turn hvalid).2 e hresult⟩
  | ok c =>
      rw [hresult] at hturn
      cases hturn

end Connector

end SolidModel
