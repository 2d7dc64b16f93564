import SolidModel.Proofs.Connector.Replay
import SolidModel.Proofs.Vec3.Failures

/-!
# How Alignments Fail

Which failures a caller has to expect where connectors are built, measured and aligned.

A connector is turned and measured by its vectors, so its failures are those of vectors, and what
they do not report is not reported here. An alignment could fail in one more way. It moves a working
copy, and a movement may be a rotation without an angle. But the copy is moved by the steps of the
alignment only, and a step that has been chosen has an angle.

## Main definitions

* `PlacementError.Severe`: A movement that fails since a vector does, and not mildly.

## Theorems

* `Connector.moveAll_turns_failsOnly`: Turns fail as vectors do.
* `Connector.axisStep?_failsOnly`, `Connector.rollStep?_failsOnly`,
  `Connector.offsetStep?_failsOnly`: The stages of an alignment.
* `Connector.align_failsOnly`: All of them, one after another.
* `Connector.failures_severe`: No caller is told of two vectors on one line.
-/

namespace SolidModel

/-- A vector on the way is degenerate, and it is not a matter of two vectors on one line. -/
inductive PlacementError.Severe : PlacementError → Prop
  | degenerate {cause : Degeneracy} (severe : cause.Severe) : Severe (.degenerate cause)

namespace Connector

theorem offsetStep?_failsOnly (w target : Connector) :
    Except.FailsOnly Degeneracy.Severe (offsetStep? w target) := by
  unfold offsetStep?
  split
  · exact Except.FailsOnly.ok _ none
  · exact (Vec3.checked_failsOnly _).map

section Turning

variable [Trigonometry]

theorem rotateAbout_failsOnly (c : Connector) (degrees : Float) (pole : Vec3) :
    Except.FailsOnly Degeneracy.Severe (c.rotateAbout degrees pole) := by
  unfold rotateAbout
  refine (Vec3.rotate_failsOnly c.point degrees pole).bind fun point _ => ?_
  refine (Vec3.rotate_failsOnly c.axis degrees pole).bind fun axis _ => ?_
  exact (Vec3.rotate_failsOnly c.normal degrees pole).bind fun normal _ => Except.FailsOnly.ok _ _

theorem move_rotateAbout_failsOnly (c : Connector) (degrees : Float) (pole : Vec3) :
    Except.FailsOnly PlacementError.Severe (c.move (.rotateAbout degrees pole)) := by
  rw [move_rotateAbout]
  refine Except.FailsOnly.mapError ?_ fun e => PlacementError.Severe.degenerate
  exact (Vec3.normalized_failsOnly pole).bind fun unit _ => rotateAbout_failsOnly c degrees unit

/-- Turns have their angles, so they fail as vectors do. This is what keeps the want of an angle, a
    failure of movements, out of alignments. -/
theorem moveAll_turns_failsOnly {steps : List Transformation}
    (h : ∀ step ∈ steps, ∃ degrees pole, step = .rotateAbout degrees pole) (c : Connector) :
    Except.FailsOnly PlacementError.Severe (c.moveAll steps) := by
  induction steps generalizing c with
  | nil => exact Except.FailsOnly.ok _ c
  | cons step rest ih =>
      rw [List.forall_mem_cons] at h
      rcases h.1 with ⟨degrees, pole, rfl⟩
      exact (move_rotateAbout_failsOnly c degrees pole).bind fun moved _ => ih h.2 moved

theorem turnOnto_failsOnly (vector goal : Vec3) :
    Except.FailsOnly Degeneracy.Severe (some <$> turnOnto vector goal).result := by
  unfold turnOnto
  rw [map_eq_pure_bind, bind_assoc, Logged.bind_result]
  exact (Vec3.alignmentRotation_failsOnly vector goal vector).bind fun turn _ =>
    Except.FailsOnly.ok _ _

theorem axisStep?_failsOnly (c target : Connector) :
    Except.FailsOnly Degeneracy.Severe (axisStep? c target).result := by
  unfold axisStep?
  split
  · exact Except.FailsOnly.ok _ none
  · exact turnOnto_failsOnly c.axis target.axis

/-- Opposite normals are asked for by name here, and whatever else their normal reports is reported
    once more by the turn, or not at all. -/
theorem rollStep?_failsOnly (between target : Connector) :
    Except.FailsOnly Degeneracy.Severe (rollStep? between target).result := by
  unfold rollStep?
  split
  · exact Except.FailsOnly.ok _ none
  · split
    · exact Except.FailsOnly.ok _ _
    · exact turnOnto_failsOnly between.normal target.normal

/-- The turns of an alignment are taken as they are found. -/
theorem turns_failsOnly (c target : Connector) :
    Except.FailsOnly PlacementError.Severe (c.turns target) := by
  unfold turns
  refine ((axisStep?_failsOnly c target).mapError fun e =>
    PlacementError.Severe.degenerate).bind fun axisStep haxisStep => ?_
  -- The working copy takes no step but the one that was found, which has an angle.
  have haxis := (axisStep?_eq_ok_iff.mp (Except.mapError_eq_ok_iff.mp haxisStep)).2
  refine (moveAll_turns_failsOnly (fun step hstep => ?_) c).bind fun between _ => ?_
  · exact (haxis step (Option.mem_toList.mp hstep)).rotates
  refine ((rollStep?_failsOnly between target).mapError fun e =>
    PlacementError.Severe.degenerate).bind fun rollStep hrollStep => ?_
  have hroll := (rollStep?_eq_ok_iff.mp (Except.mapError_eq_ok_iff.mp hrollStep)).2
  refine (moveAll_turns_failsOnly (fun step hstep => ?_) between).bind fun w _ => ?_
  · exact (hroll step (Option.mem_toList.mp hstep)).rotates
  exact Except.FailsOnly.ok _ _

theorem align_failsOnly (c target : Connector) :
    Except.FailsOnly PlacementError.Severe (c.align target).result := by
  rw [align_result_eq]
  refine (turns_failsOnly c target).bind fun turned _ => ?_
  refine ((offsetStep?_failsOnly turned.2 target).mapError fun e =>
    PlacementError.Severe.degenerate).bind fun offset? _ => ?_
  exact Except.FailsOnly.ok _ _

theorem ofAxis_failsOnly (point axis : Vec3) (roll : Float) :
    Except.FailsOnly Degeneracy.Severe (ofAxis point axis roll).result := by
  unfold ofAxis
  simp only [Logged.bind_result]
  refine ((Vec3.checked_failsOnly axis).bind fun axis _ =>
    Vec3.normalized_failsOnly axis).bind fun direction _ => ?_
  refine (Vec3.rotate_failsOnly Vec3.axisX roll Vec3.axisZ).bind fun rolled _ => ?_
  refine (Vec3.rotateToAlignment_failsOnly rolled Vec3.axisZ direction).bind fun normal _ => ?_
  exact (Vec3.checked_failsOnly point).bind fun point _ => Except.FailsOnly.ok _ _

theorem roll_failsOnly (c : Connector) : Except.FailsOnly Degeneracy.Severe c.roll.result := by
  unfold roll
  rw [Logged.bind_result]
  exact (Vec3.rotateToAlignment_failsOnly c.normal c.axis Vec3.axisZ).bind fun normal _ =>
    Vec3.angleBetween_failsOnly Vec3.axisX normal (some Vec3.axisZ)

/-- No caller is told of two vectors on one line. Where vectors are to be aligned, measured or made
    into connectors, a failure is severe: something was no number, or null, or no perpendicular was
    found. An alignment of connectors can fail in no other way either, although it moves a working
    copy.

    The last part is about angles that are measured along a given direction. If one of the two
    vectors is null, this is what the caller is told, with the shorter vector named first. -/
theorem failures_severe :
    (∀ v : Vec3, Except.FailsOnly Degeneracy.Severe v.arbitraryNormal) ∧
    (∀ fallback inclined reference : Vec3, Except.FailsOnly Degeneracy.Severe
      (fallback.alignmentRotation inclined reference).result) ∧
    (∀ v inclined reference : Vec3, Except.FailsOnly Degeneracy.Severe
      (v.rotateToAlignment inclined reference).result) ∧
    (∀ (a b : Vec3) (look? : Option Vec3), Except.FailsOnly Degeneracy.Severe
      (a.angleBetween b look?)) ∧
    (∀ (point axis : Vec3) (roll : Float), Except.FailsOnly Degeneracy.Severe
      (ofAxis point axis roll).result) ∧
    (∀ c : Connector, Except.FailsOnly Degeneracy.Severe c.roll.result) ∧
    (∀ c target : Connector, Except.FailsOnly PlacementError.Severe (c.align target).result) ∧
    ∀ a b look : Vec3, (a.isNull || b.isNull) = true → a.angleBetween b (some look) =
      .error (if a.magnitude ≤ b.magnitude then .nullVector a b else .nullVector b a) :=
  ⟨Vec3.arbitraryNormal_failsOnly, Vec3.alignmentRotation_failsOnly,
    Vec3.rotateToAlignment_failsOnly, Vec3.angleBetween_failsOnly, ofAxis_failsOnly, roll_failsOnly,
    align_failsOnly, fun _ _ look hnull => Vec3.angleBetween_of_null hnull look⟩

end Turning

/-- A vector so long that all axes seem to lie on its line, and the origin where a direction is
    wanted. -/
theorem failures_severe_origin :
    let far : Vec3 := ⟨1e200, 1e200, 1e200⟩
    let flat : Connector := ⟨.origin, .origin, .axisX⟩
    (far.arbitraryNormal = .error (.noNormal far) ∧ (Degeneracy.noNormal far).Severe) ∧
    (flat.roll.result = .error (.nullVector .origin .axisZ) ∧
      (Degeneracy.nullVector .origin .axisZ).Severe) ∧
    ((world.align flat).result = .error (.degenerate (.nullVector .origin .axisZ)) ∧
      (PlacementError.degenerate (.nullVector .origin .axisZ)).Severe) ∧
    (Vec3.axisX.isNull || Vec3.origin.isNull) = true ∧
      Vec3.axisX.angleBetween .origin (some .axisZ) = .error (.nullVector .origin .axisX) := by
  intro far flat
  rcases failures_severe with ⟨harbitrary, _, _, _, _, hroll, halign, hnull⟩
  have hfar : far.arbitraryNormal = .error (.noNormal far) := by decide +kernel
  have hflat : flat.roll.result = .error (.nullVector .origin .axisZ) := by decide +kernel
  have hworld : (world.align flat).result = .error (.degenerate (.nullVector .origin .axisZ)) := by
    decide +kernel
  have horigin : (Vec3.axisX.isNull || Vec3.origin.isNull) = true := by decide +kernel
  have hlength : ¬ Vec3.axisX.magnitude ≤ Vec3.origin.magnitude := by decide +kernel
  refine ⟨⟨hfar, harbitrary far _ hfar⟩, ⟨hflat, hroll flat _ hflat⟩,
    ⟨hworld, halign world flat _ hworld⟩, horigin, ?_⟩
  rw [hnull Vec3.axisX Vec3.origin Vec3.axisZ horigin, if_neg hlength]

end Connector

end SolidModel
