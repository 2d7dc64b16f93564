import SolidModel.Proofs.Connector.Turns

/-!
# How Far Alignment Reaches

What an alignment achieves, and what it may miss.

An alignment of two connectors always comes to an end, its steps can always be taken, and they
always bring the points together. The directions are another matter. They are what the turns have
made of them, and the alignment has reached its target exactly if the turns have.

They need not have. The turn about the axis is not about the axis: it is about the normal of the
normals, and this lies along the axis only as far as the axes agree. Axes that agree within the
tolerance are left alone, and if the normals are almost opposite then, their own normal may point
anywhere. The turn brings the normals together all the same, and it turns the axis upside down.

## Main definitions

* `Connector.Oriented`: A point in range, and perpendicular directions of length one.

## Theorems

* `Connector.align_reaches_iff`: An alignment succeeds, and it reaches its target if its turns do.
* `Connector.align_misses`: Some turns do not.
-/

namespace SolidModel

/-- One number cannot be close to one and to its opposite. -/
theorem not_close_to_opposites {base z z' t t' : Float} (hz : value z = 0) (hz' : value z' = 0)
    (h : Tolerance.standard.isClose (base + z * t) 1.0 = true)
    (h' : Tolerance.standard.isClose (base + z' * t') (-1.0) = true) : False := by
  have hone : value 1.0 = 1 := by
    have hparts : parts 1.0 = .finite .positive (2 ^ 52) (-52) (by decide) := rfl
    rw [value, hparts, valueOf, signFactor]
    norm_num
  have hminus : value (-1.0) = -1 := by
    have hparts : parts (-1.0) = .finite .negative (2 ^ 52) (-52) (by decide) := rfl
    rw [value, hparts, valueOf, signFactor]
    norm_num
  have hclose := value_of_isClose rfl (by rw [hone]; norm_num) h
  have hclose' := value_of_isClose rfl (by rw [hminus]; norm_num) h'
  have hsame := abs_le.mp (add_zero_mul hz hclose.1)
  have hsame' := abs_le.mp (add_zero_mul hz' hclose'.1)
  rw [hone] at hclose
  rw [hminus] at hclose'
  have hnear := abs_le.mp hclose.2
  have hnear' := abs_le.mp hclose'.2
  have hleast : (2 : ℝ) ^ (-1000 : ℤ) ≤ 2 ^ (-10 : ℤ) :=
    zpow_le_zpow_right₀ one_le_two (by norm_num)
  generalize (2 : ℝ) ^ (-1000 : ℤ) = least at *
  norm_num at hnear hnear' hsame hsame' hleast
  rcases abs_cases (value base) with ⟨habs, _⟩ | ⟨habs, _⟩
  · rw [habs] at hsame hsame'
    linarith
  · rw [habs] at hsame hsame'
    linarith

namespace Connector

/-- The point is within a million units of the world's center, and the directions have a computed
    length of one and a computed product of zero. -/
structure Oriented (c : Connector) : Prop where
  /-- No coordinate of the point exceeds a million. -/
  point : c.point.Inside (10 ^ 6)
  /-- The axis is finite. -/
  axis : c.axis.Finite
  /-- The normal is finite. -/
  normal : c.normal.Finite
  /-- The computed length of the axis is one to the last bit. -/
  axis_length : (c.axis.magnitude == 1.0) = true
  /-- The computed length of the normal is one to the last bit. -/
  normal_length : (c.normal.magnitude == 1.0) = true
  /-- The computed product of the two is zero, of either sign. -/
  perpendicular : (c.axis.dot c.normal == 0.0) = true

theorem Oriented.framed {c : Connector} (h : c.Oriented) : c.Framed 20 (2 ^ (-46 : ℤ)) where
  point := h.point.mono (by norm_num)
  axis := Vec3.normed_of_magnitude h.axis h.axis_length
  normal := Vec3.normed_of_magnitude h.normal h.normal_length

/-- The directions after the turns are those of the target. -/
def Meets (w target : Connector) : Prop :=
  w.axis.isClose target.axis = true ∧ w.normal.isClose target.normal = true

/-- An alignment succeeds, its steps succeed, and they bring the points together. It reaches its
    target exactly if its turns do: the offset leaves the directions alone, and it leads to the
    target from wherever the turns have led. -/
theorem align_reaches_iff [t : Trigonometry] (accurate : t.Accurate) {a b : Connector}
    (ha : a.Oriented) (hb : b.Oriented) :
    ∃ turned w steps moved, a.turns b = .ok (turned, w) ∧ (a.align b).result = .ok steps ∧
      a.moveAll steps = .ok moved ∧ moved.point.isClose b.point = true ∧
      (moved.isClose b = true ↔ w.Meets b) := by
  rcases turns_framed accurate ha.framed (by norm_num) (by norm_num) (by norm_num)
    (hb.framed.axis.weaken (by norm_num)) (hb.framed.normal.weaken (by norm_num)) with
    ⟨turned, w, hturns, hframed⟩
  rcases align_of_turns hturns (hframed.point.mono (by norm_num)) hb.point with
    ⟨steps, moved, halign, hmoved, hpoint, haxis, hnormal⟩
  refine ⟨turned, w, steps, moved, hturns, halign, hmoved, hpoint, ?_⟩
  rw [isClose, Bool.and_eq_true, Bool.and_eq_true, haxis, hnormal, Meets]
  exact ⟨fun h => ⟨h.1.2, h.2⟩, fun h => ⟨⟨hpoint, h.1⟩, h.2⟩⟩

/-- The axis is off by less than the tolerance, and the normals are opposite. The one step that is
    handed out turns the normals onto each other about their product, and not about the axis. -/
theorem align_misses :
    let a : Connector := ⟨.origin, ⟨5e-9, 0, 1⟩, ⟨1, 0, -5e-9⟩⟩
    let b : Connector := ⟨.origin, ⟨0, 0, 1⟩, ⟨-1, 0, 0⟩⟩
    ¬ ∃ steps moved, (a.align b).result = .ok steps ∧ a.moveAll steps = .ok moved ∧
      moved.isClose b = true := by
  rintro a b ⟨steps, moved, halign, hmoved, hclose⟩
  have haxis : a.axis.isClose b.axis = true := by decide +kernel
  have hnormal : ¬ a.normal.isClose b.normal = true := by decide +kernel
  have hcross : a.normal.normal b.normal = .ok ⟨0, 1, 0⟩ := by decide +kernel
  have hpole : b.normal.normal a.normal = .ok ⟨-0.0, -1, -0.0⟩ := by decide +kernel
  have hnull : (b.normal.isNull || a.normal.isNull) = false := by decide +kernel
  have hunit : (⟨-0.0, -1, -0.0⟩ : Vec3).normalized = .ok ⟨-0.0, -1, -0.0⟩ := by decide +kernel
  rcases directions_of_align halign hmoved with ⟨turned, w, hturns, hwaxis, hwnormal⟩
  -- There is one turn, about the second axis and by some angle.
  have hroll : (rollStep? a b).result = .ok (some (.rotateAbout
      (-Vec3.signedAngle b.normal a.normal ⟨-0.0, -1, -0.0⟩) ⟨-0.0, -1, -0.0⟩)) := by
    rw [rollStep?, if_neg hnormal, hcross]
    simp only [turnOnto, Vec3.alignmentRotation, Vec3.alignmentAxis, hpole,
      Vec3.angleBetween, hnull]
    rfl
  have hturned : a.rotateAbout (-Vec3.signedAngle b.normal a.normal ⟨-0.0, -1, -0.0⟩)
      ⟨-0.0, -1, -0.0⟩ = .ok w := by
    rw [turns, axisStep?, if_pos haxis] at hturns
    rcases Except.bind_eq_ok_iff.mp hturns with ⟨axisStep, haxisStep, h⟩
    cases haxisStep
    rcases Except.bind_eq_ok_iff.mp h with ⟨working, hworking, h⟩
    cases hworking
    rcases Except.bind_eq_ok_iff.mp h with ⟨rollStep, hrollStep, h⟩
    rw [hroll] at hrollStep
    cases hrollStep
    rcases Except.bind_eq_ok_iff.mp h with ⟨w', hw', h⟩
    cases h
    rcases Except.bind_eq_ok_iff.mp hw' with ⟨w'', hw'', h⟩
    cases h
    rwa [move_rotateAbout, Except.mapError_eq_ok_iff, hunit] at hw''
  rcases rotateAbout_eq_ok_iff.mp hturned with ⟨_, hturnedAxis, hturnedNormal⟩
  have haxis' := Vec3.eq_of_checked hturnedAxis
  have hnormal' := Vec3.eq_of_checked hturnedNormal
  -- The third coordinate of the axis and the first one of the normal are the same number.
  rw [isClose, hwaxis, hwnormal, haxis', hnormal', Bool.and_eq_true, Bool.and_eq_true] at hclose
  have hz := ((Bool.and_eq_true _ _).mp hclose.1.2).2
  have hx := ((Bool.and_eq_true _ _).mp ((Bool.and_eq_true _ _).mp hclose.2).1).1
  generalize -Vec3.signedAngle b.normal a.normal ⟨-0.0, -1, -0.0⟩ * Vec3.radiansPerDegree = radians
    at hz hx
  generalize Trigonometry.cos radians = c at hz hx
  generalize Trigonometry.sin radians = s at hz hx
  have hcrossZ : ((⟨-0.0, -1, -0.0⟩ : Vec3).cross a.axis).z = 5e-9 := by decide +kernel
  have hcrossX : ((⟨-0.0, -1, -0.0⟩ : Vec3).cross a.normal).x = 5e-9 := by decide +kernel
  have hz' : Tolerance.standard.isClose (1 * c + 5e-9 * s +
      -0.0 * ((⟨-0.0, -1, -0.0⟩ : Vec3).dot a.axis * (1.0 - c))) 1.0 = true := by
    rw [← hcrossZ]
    exact hz
  have hx' : Tolerance.standard.isClose (1 * c + 5e-9 * s +
      -0.0 * ((⟨-0.0, -1, -0.0⟩ : Vec3).dot a.normal * (1.0 - c))) (-1.0) = true := by
    rw [← hcrossX]
    exact hx
  have hzero : value (-0.0) = 0 := by
    have hparts : parts (-0.0) = .zero .negative := rfl
    rw [value, hparts]
    rfl
  exact not_close_to_opposites hzero hzero hz' hx'

end Connector

end SolidModel
