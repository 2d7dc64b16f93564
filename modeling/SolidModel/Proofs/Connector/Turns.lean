import SolidModel.Proofs.Connector.Landing
import SolidModel.Proofs.Vec3.Angle

/-!
# Turns of an Alignment

That the turns of an alignment are always found and always taken.

A turn is found from two directions of length one. They have a normal, or they lie on one line and
some normal of one of them will do, and about that normal there is an angle between them. To take
the turn neither lengthens nor shortens anything by more than a rounding, so that the directions are
still good for the next turn to be found from, and the point is still in range for the offset.

Nothing is said here of where the turns lead, only that they lead somewhere.

## Main definitions

* `Connector.Framed`: A point in range, and directions of length one.
* `Connector.IsTurn`: Nothing to do, or a rotation by some angle about a pole of length one.

## Theorems

* `Connector.Framed.rotateAbout`, `Connector.Framed.move`: A turn succeeds.
* `Connector.axisStep_isTurn`, `Connector.rollStep_isTurn`: The turns are found.
* `Connector.turns_framed`: All turns of an alignment succeed.
-/

namespace SolidModel

namespace Connector

/-- The point is in range, and the directions have length one up to an error. -/
structure Framed (c : Connector) (n : ℤ) (ε : ℝ) : Prop where
  /-- No coordinate of the point exceeds the power of two. -/
  point : c.point.Inside (2 ^ n)
  /-- The axis has length one, up to an error in the square. -/
  axis : c.axis.Normed ε
  /-- The normal has length one, up to an error in the square. -/
  normal : c.normal.Normed ε

/-- If there is a step, it is a rotation by a moderate angle about a pole of length one. -/
inductive IsTurn : Option Transformation → Prop
  | none : IsTurn none
  | about {degrees : Float} {pole : Vec3} (finite : degrees.isFinite = true)
      (size : |value degrees| ≤ 2 ^ (8 : ℤ)) (normed : pole.Normed (2 ^ (-44 : ℤ))) :
      IsTurn (some (.rotateAbout degrees pole))

theorem value_halfTurn : value 180.0 = 180 := by
  have h : parts 180.0 = .finite .positive 6333186975989760 (-45) (by decide) := rfl
  rw [value, h, valueOf, signFactor]
  norm_num

variable {c target : Connector} {n : ℤ} {ε : ℝ}

/-- To turn a connector keeps the directions what they are. The point may get out of its bound, but
    not out of twice that. -/
theorem Framed.rotateAbout [t : Trigonometry] (accurate : t.Accurate) (h : c.Framed n ε)
    (hlow : 0 ≤ n) (hhigh : n ≤ 100) (hε : ε ≤ 1 / 16) {degrees : Float} {p : Vec3}
    (hpole : p.Normed (2 ^ (-44 : ℤ))) (hdegrees : degrees.isFinite = true)
    (hdegrees' : |value degrees| ≤ 2 ^ (8 : ℤ)) :
    ∃ w, c.rotateAbout degrees p = .ok w ∧ w.Framed (n + 1) (ε + 2 ^ (-36 : ℤ)) := by
  rcases h.point.rotate accurate hlow hhigh hpole hdegrees hdegrees' with ⟨point, hpoint, hinside⟩
  rcases h.axis.rotate accurate hε hpole hdegrees hdegrees' with ⟨axis, haxis, hnaxis⟩
  rcases h.normal.rotate accurate hε hpole hdegrees hdegrees' with ⟨normal, hnormal, hnnormal⟩
  exact ⟨⟨point, axis, normal⟩, rotateAbout_eq_ok_iff.mpr ⟨hpoint, haxis, hnormal⟩, hinside, hnaxis,
    hnnormal⟩

/-- A turn succeeds. -/
theorem Framed.move [t : Trigonometry] (accurate : t.Accurate) (h : c.Framed n ε) (hlow : 0 ≤ n)
    (hhigh : n ≤ 100) (hε : ε ≤ 1 / 16) {degrees : Float} {pole : Vec3}
    (hpole : pole.Normed (2 ^ (-44 : ℤ))) (hdegrees : degrees.isFinite = true)
    (hdegrees' : |value degrees| ≤ 2 ^ (8 : ℤ)) :
    ∃ w, c.move (.rotateAbout degrees pole) = .ok w ∧ w.Framed (n + 1) (ε + 2 ^ (-36 : ℤ)) := by
  rcases hpole.square_mem with ⟨hsmall, hlarge⟩
  -- The pole is divided by its length once more.
  rcases Vec3.normalized_near hpole.finite (by norm_num at hsmall ⊢; linarith)
    (by norm_num at hlarge ⊢; linarith) with ⟨p, hp, hnormed, _⟩
  rcases h.rotateAbout accurate hlow hhigh hε hnormed hdegrees hdegrees' with ⟨w, hw, hframed⟩
  refine ⟨w, ?_, hframed⟩
  rw [move_rotateAbout, hp, Except.mapError_eq_ok_iff]
  exact hw

/-- A turn that need not be there succeeds, and keeps the directions what they are. -/
theorem Framed.moveAll [t : Trigonometry] (accurate : t.Accurate) (h : c.Framed n ε) (hlow : 0 ≤ n)
    (hhigh : n ≤ 100) (hε : ε ≤ 1 / 16) {step? : Option Transformation} (hstep : IsTurn step?) :
    ∃ w, c.moveAll step?.toList = .ok w ∧ w.Framed (n + 1) (ε + 2 ^ (-36 : ℤ)) := by
  cases hstep with
  | none =>
      refine ⟨c, rfl, h.point.mono ?_, h.axis.weaken ?_, h.normal.weaken ?_⟩
      · exact zpow_le_zpow_right₀ one_le_two (by omega)
      · exact le_add_of_nonneg_right (by positivity)
      · exact le_add_of_nonneg_right (by positivity)
  | about hdegrees hdegrees' hpole =>
      rcases h.move accurate hlow hhigh hε hpole hdegrees hdegrees' with ⟨w, hw, hframed⟩
      exact ⟨w, moveAll_toList_some hw, hframed⟩

variable [t : Trigonometry]

/-- The turn that carries one direction onto another is found. -/
theorem turnOnto_isTurn (accurate : t.Accurate) {vector goal : Vec3} (hvector : vector.Normed ε)
    (hgoal : goal.Normed ε) (hε : ε ≤ 1 / 4) :
    ∃ step, (turnOnto vector goal).result = .ok step ∧ IsTurn (some step) := by
  rcases Vec3.alignmentRotation_normed accurate hvector hgoal hvector hε with
    ⟨angle, pole, hrotation, hangle, hangle', hpole⟩
  refine ⟨.rotateAbout (-angle) pole, ?_, IsTurn.about ?_ ?_ hpole⟩
  · exact Logged.bind_eq_ok_iff.mpr ⟨(angle, pole), hrotation, rfl⟩
  · rw [isFinite_neg, hangle]
  · rw [value_neg, abs_neg]
    exact hangle'

/-- The turn that brings the axes together is found, if one is needed. -/
theorem axisStep_isTurn (accurate : t.Accurate) (haxis : c.axis.Normed ε)
    (hgoal : target.axis.Normed ε) (hε : ε ≤ 1 / 4) :
    ∃ step?, (axisStep? c target).result = .ok step? ∧ IsTurn step? := by
  by_cases hclose : c.axis.isClose target.axis = true
  · exact ⟨none, by rw [axisStep?, if_pos hclose]; rfl, IsTurn.none⟩
  rcases turnOnto_isTurn accurate haxis hgoal hε with ⟨step, hstep, hturn⟩
  refine ⟨some step, ?_, hturn⟩
  rw [axisStep?, if_neg hclose]
  exact Logged.map_eq_ok hstep some

/-- The turn that brings the normals together is found, if one is needed. -/
theorem rollStep_isTurn (accurate : t.Accurate) (hnormal : c.normal.Normed ε)
    (hgoal : target.normal.Normed ε) (hε : ε ≤ 1 / 4) (haxis : target.axis.Normed (2 ^ (-44 : ℤ))) :
    ∃ step?, (rollStep? c target).result = .ok step? ∧ IsTurn step? := by
  by_cases hclose : c.normal.isClose target.normal = true
  · exact ⟨none, by rw [rollStep?, if_pos hclose]; rfl, IsTurn.none⟩
  rcases turnOnto_isTurn accurate hnormal hgoal hε with ⟨step, hstep, hturn⟩
  rw [rollStep?, if_neg hclose]
  split
  · refine ⟨some (.rotateAbout 180.0 target.axis), rfl, IsTurn.about rfl ?_ haxis⟩
    rw [value_halfTurn]
    norm_num
  · exact ⟨some step, Logged.map_eq_ok hstep some, hturn⟩

/-- All turns of an alignment are found and taken. Nothing is said of where they lead, so that this
    holds however the connectors lie to each other. -/
theorem turns_framed (accurate : t.Accurate) (hc : c.Framed n ε) (hlow : 0 ≤ n) (hhigh : n ≤ 50)
    (hε : ε ≤ 1 / 32) (haxis : target.axis.Normed (2 ^ (-44 : ℤ)))
    (hnormal : target.normal.Normed (1 / 4)) :
    ∃ steps w, c.turns target = .ok (steps, w) ∧
      w.Framed (n + 1 + 1) (ε + 2 ^ (-36 : ℤ) + 2 ^ (-36 : ℤ)) := by
  rcases axisStep_isTurn accurate (hc.axis.weaken (by linarith : ε ≤ 1 / 4))
    (haxis.weaken (by norm_num)) le_rfl with ⟨axisStep, haxisStep, hturn⟩
  rcases hc.moveAll accurate hlow (by omega) (by linarith) hturn with ⟨working, hworking, hframed⟩
  rcases rollStep_isTurn accurate (hframed.normal.weaken (by norm_num; linarith : _ ≤ (1 / 4 : ℝ)))
    hnormal le_rfl haxis with ⟨rollStep, hrollStep, hturn'⟩
  rcases hframed.moveAll accurate (by omega) (by omega) (by norm_num; linarith) hturn' with
    ⟨w, hw, hframed'⟩
  exact ⟨_, w, turns_of_steps haxisStep hworking hrollStep hw, hframed'⟩

end Connector

end SolidModel
