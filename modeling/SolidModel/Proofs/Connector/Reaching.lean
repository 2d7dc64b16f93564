import SolidModel.Proofs.Connector.Alignment
import SolidModel.Proofs.Vec3.Carry

/-!
# Where Alignment Reaches Its Target

An alignment may miss its target, but it does so only if there is some doubt whether two directions
differ. Where there is none, it reaches the target.

There is no doubt if the directions hardly differ, or if they are apart: not the same, and not
opposite either. In the first case no turn is needed, and a turn that is not taken does no harm. In
the second case the turn is known, and it carries the one direction onto the other. The axes are the
first to be looked at. The normals are looked at as they are once the axes are together, and where
they are then is known as well, because the first turn is the shortest one.

The second turn has to leave the axis in its place. It is about the normal of the normals. The axis
is perpendicular to both of them, to the one because it was when the alignment began and turns keep
right angles, and to the other because it now is where the axis of the target is. How far it may be
off is what the first turn has left of an error, several dozen times over. This is where most of the
tolerance goes.

## Main definitions

* `Connector.Clear`: There is no doubt whether two directions differ.
* `Connector.OnAxis`: What is known between the turns.

## Theorems

* `Connector.Framed.turnOnto`: A turn between directions that are apart is found and taken.
* `Connector.axisStep_onAxis`: The first turn, if there is one, brings the axes together.
* `Connector.rollStep_meets`: So does the second with the normals, and the axes stay together.
* `Connector.align_reaches_of_clear`: An alignment without doubts reaches its target.
-/

namespace SolidModel

open scoped Matrix

namespace Vec3

variable {f g : Vec3}

/-- Vectors that are near each other are close. -/
theorem isClose_of_near (hf : f.Finite) (hg : g.Inside (2 ^ (20 : ℤ)))
    (h : length (f.real - g.real) ≤ 9 / 10 ^ 9) : f.isClose g = true := by
  have hnear (i : Fin 3) := (abs_apply_le_length (f.real - g.real) i).trans h
  rw [isClose, isCloseWithin, Bool.and_eq_true, Bool.and_eq_true]
  exact ⟨⟨isClose_of_value hf.1 hg.finite.1 hg.x (hnear 0),
    isClose_of_value hf.2.1 hg.finite.2.1 hg.y (hnear 1)⟩,
    isClose_of_value hf.2.2 hg.finite.2.2 hg.z (hnear 2)⟩

/-- Close directions are near each other. -/
theorem near_of_isClose (hg : g.Inside (2 ^ (1 : ℤ))) (h : f.isClose g = true) :
    length (f.real - g.real) ≤ 2 ^ (-13 : ℤ) := by
  have hcomponent {x y : Float} (hy : y.isFinite = true) (hsize : |value y| ≤ 2 ^ (1 : ℤ))
      (hclose : Tolerance.standard.isClose x y = true) : |value x - value y| ≤ 2 ^ (-14 : ℤ) := by
    have hnear := (value_of_isClose hy (hsize.trans (by norm_num)) hclose).2
    norm_num at hsize hnear ⊢
    linarith
  rw [isClose, isCloseWithin, Bool.and_eq_true, Bool.and_eq_true] at h
  have hlength : length (f.real - g.real) ≤ 2 * 2 ^ (-14 : ℤ) := by
    refine length_le_of_abs_le fun i => ?_
    fin_cases i
    · exact hcomponent hg.finite.1 hg.x h.1.1
    · exact hcomponent hg.finite.2.1 hg.y h.1.2
    · exact hcomponent hg.finite.2.2 hg.z h.2
  exact hlength.trans (by norm_num)

/-- Directions that are apart are not close. -/
theorem Normed.not_isClose {ε : ℝ} (hg : g.Normed ε) (hε : ε ≤ 1 / 16)
    (hapart : 1 / 17 ≤ length (g.real ⨯₃ f.real)) : ¬ f.isClose g = true := fun h => by
  have hnear := near_of_isClose (hg.abs_le_two (by linarith)) h
  have hsplit : g.real ⨯₃ f.real = g.real ⨯₃ (f.real - g.real) := by
    rw [map_sub, cross_self, sub_zero]
  have hproduct := (length_cross_le g.real (f.real - g.real)).trans
    (mul_le_mul hg.length_le hnear (length_nonneg _) (by linarith [(abs_nonneg _).trans hg.near]))
  rw [← hsplit] at hproduct
  norm_num at hproduct
  linarith

end Vec3

namespace Connector

variable {c a b w target : Connector} {n : ℤ} {ε δ : ℝ}

/-- A computed product of zero means a product of zero, up to rounding. -/
theorem Oriented.abs_dot_le (h : c.Oriented) : |c.axis.real ⬝ᵥ c.normal.real| ≤ 2 ^ (-46 : ℤ) := by
  have hnear := Vec3.near_dot (h.framed.axis.abs_le_two (by norm_num))
    (h.framed.normal.abs_le_two (by norm_num)) (by norm_num) (by norm_num) (by norm_num)
    (by norm_num)
  have hzero := h.perpendicular
  rw [beq_iff_value_eq hnear.finite rfl, value_zero] at hzero
  have herror := hnear.error
  rw [hzero, zero_sub, abs_neg] at herror
  exact herror.trans (by norm_num)

/-- It is clear whether two directions differ: they hardly do, or they are apart. -/
inductive Clear (x y : Fin 3 → ℝ) : Prop
  /-- The directions are one, far within the tolerance. -/
  | same (h : length (x - y) ≤ 1 / 10 ^ 10)
  /-- The directions are four degrees or more from one line. -/
  | apart (h : 1 / 16 ≤ length (y ⨯₃ x))

/-- What is clear of a direction can be seen of another one near it. -/
theorem Clear.near_or_apart {x y z : Fin 3 → ℝ} (h : Clear x z) (hz : length z ≤ 17 / 16)
    (hnear : length (y - x) ≤ 2 ^ (-29 : ℤ)) :
    length (y - z) ≤ 9 / 10 ^ 9 ∨ 1 / 17 ≤ length (z ⨯₃ y) := by
  cases h with
  | same hsame =>
      have htriangle := length_sub_le y x z
      norm_num at hnear hsame ⊢
      exact Or.inl (by linarith)
  | apart hapart =>
      have hcross := length_cross_le_add z x y
      have hproduct := mul_le_mul hz hnear (length_nonneg _) (by norm_num)
      rw [← length_neg (y - x), neg_sub] at hproduct
      norm_num at hproduct hapart ⊢
      exact Or.inr (by linarith)

/-! ## Turns -/

section Turns

/-- What is known of a connector once its axis has been brought to that of the target. -/
structure OnAxis (w target : Connector) : Prop where
  /-- The point is in range, and the directions still have length one, up to an error that is far
      below the tolerance. -/
  framed : w.Framed 21 (2 ^ (-35 : ℤ))
  /-- The axis is that of the target, up to such an error. -/
  axis : length (w.axis.real - target.axis.real) ≤ 2 ^ (-33 : ℤ)
  /-- The normal stands on the axis, up to such an error. -/
  perpendicular : |w.normal.real ⬝ᵥ w.axis.real| ≤ 2 ^ (-35 : ℤ)

theorem OnAxis.axis_isClose (h : w.OnAxis b) (hb : b.Oriented) : w.axis.isClose b.axis = true :=
  Vec3.isClose_of_near h.framed.axis.finite
    ((hb.framed.axis.abs_le_two (by norm_num)).mono (by norm_num)) (h.axis.trans (by norm_num))

variable [t : Trigonometry]

/-- A turn that is found is taken. -/
theorem Framed.turnOnto_of_rotation (accurate : t.Accurate) (h : c.Framed n ε) (hlow : 0 ≤ n)
    (hhigh : n ≤ 100) (hε : ε ≤ 1 / 16) {f g axis p : Vec3} {angle : Float}
    (hrotation : (Vec3.alignmentRotation f g).result = .ok (angle, axis))
    (hp : axis.normalized = .ok p)
    (hpole : p.Normed (2 ^ (-44 : ℤ))) (hfinite : (-angle).isFinite = true)
    (hsize : |value (-angle)| ≤ 2 ^ (8 : ℤ)) :
    ∃ step w, (turnOnto f g).result = .ok step ∧ c.moveAll (some step).toList = .ok w ∧
      w.Framed (n + 1) (ε + 2 ^ (-36 : ℤ)) ∧ c.axis.rotate (-angle) p = .ok w.axis ∧
      c.normal.rotate (-angle) p = .ok w.normal := by
  rcases h.rotateAbout accurate hlow hhigh hε hpole hfinite hsize with ⟨w, hw, hframed⟩
  rcases rotateAbout_eq_ok_iff.mp hw with ⟨_, haxis, hnormal⟩
  refine ⟨.rotateAbout (-angle) axis, w, ?_, moveAll_toList_some ?_, hframed, haxis, hnormal⟩
  · exact Logged.bind_eq_ok_iff.mpr ⟨(angle, axis), hrotation, rfl⟩
  · rw [move_rotateAbout, hp, Except.mapError_eq_ok_iff]
    exact hw

/-- The turn from one direction to another is found and taken, if they are apart, and it carries the
    one onto the other. The directions of the connector are turned by it, and still have length one,
    and the point stays in range. -/
theorem Framed.turnOnto (accurate : t.Accurate) (h : c.Framed n ε) (hlow : 0 ≤ n) (hhigh : n ≤ 100)
    (hε : ε ≤ 1 / 16) {f g : Vec3} (hf : f.Normed δ) (hg : g.Normed δ) (hδ : δ ≤ 2 ^ (-31 : ℤ))
    (hapart : 1 / 17 ≤ length (g.real ⨯₃ f.real)) :
    ∃ step w degrees p, (turnOnto f g).result = .ok step ∧ c.moveAll (some step).toList = .ok w ∧
      w.Framed (n + 1) (ε + 2 ^ (-36 : ℤ)) ∧ Vec3.Carries degrees p f g δ ∧
      c.axis.rotate degrees p = .ok w.axis ∧ c.normal.rotate degrees p = .ok w.normal := by
  rcases Vec3.alignmentRotation_carries accurate hf hg hδ hapart with
    ⟨angle, axis, p, hrotation, hp, hcarries⟩
  rcases h.turnOnto_of_rotation accurate hlow hhigh hε hrotation hp hcarries.pole hcarries.finite
    hcarries.size with ⟨step, w, hstep, hw, hframed, haxis, hnormal⟩
  exact ⟨step, w, -angle, p, hstep, hw, hframed, hcarries, haxis, hnormal⟩

/-- The first turn brings the axes together, and the normal goes with them by the shortest way. If
    the axes hardly differ there may be no turn, and then the normal stays where it is, which is
    nearly the same. -/
theorem axisStep_onAxis (accurate : t.Accurate) (ha : a.Oriented) (hb : b.Oriented)
    (hclear : Clear a.axis.real b.axis.real) :
    ∃ step? w, (axisStep? a b).result = .ok step? ∧ a.moveAll step?.toList = .ok w ∧ w.OnAxis b ∧
      length (w.normal.real - carried a.axis.real b.axis.real a.normal.real) ≤ 2 ^ (-29 : ℤ) := by
  have hperpendicular := ha.abs_dot_le
  rw [dotProduct_comm] at hperpendicular
  cases hclear with
  | same hsame =>
      have hclose : a.axis.isClose b.axis = true := Vec3.isClose_of_near ha.axis
        ((hb.framed.axis.abs_le_two (by norm_num)).mono (by norm_num)) (hsame.trans (by norm_num))
      -- No step is taken, and a turn between directions this close would hardly move the normal.
      refine ⟨none, a, by rw [axisStep?, if_pos hclose]; rfl, rfl, ⟨⟨?_, ?_, ?_⟩, ?_, ?_⟩, ?_⟩
      · exact ha.framed.point.mono (zpow_le_zpow_right₀ one_le_two (by norm_num))
      · exact ha.framed.axis.weaken (by norm_num)
      · exact ha.framed.normal.weaken (by norm_num)
      · exact hsame.trans (by norm_num)
      · exact hperpendicular.trans (by norm_num)
      · exact length_sub_carried_le ha.framed.axis.near_real
          (ha.framed.axis.length_le.trans (by norm_num))
          (ha.framed.normal.length_le.trans (by norm_num)) hsame
  | apart hapart =>
      have hapart' : 1 / 17 ≤ length (b.axis.real ⨯₃ a.axis.real) := le_trans (by norm_num) hapart
      have hclose := hb.framed.axis.not_isClose (by norm_num) hapart'
      rcases ha.framed.turnOnto accurate (by norm_num) (by norm_num) (by norm_num) ha.framed.axis
        hb.framed.axis (by norm_num) hapart' with
        ⟨step, w, degrees, p, hstep, hw, hframed, hcarries, haxis, hnormal⟩
      refine ⟨some step, w, ?_, hw, ⟨⟨hframed.point, ?_, ?_⟩, ?_, ?_⟩, ?_⟩
      · rw [axisStep?, if_neg hclose]
        exact Logged.map_eq_ok hstep some
      · exact hframed.axis.weaken (by norm_num)
      · exact hframed.normal.weaken (by norm_num)
      · exact (hcarries.goal accurate ha.framed.axis hb.framed.axis (by norm_num) haxis).trans
          (by norm_num)
      · -- The turn keeps the right angle between the two directions.
        have hkept :=
          ha.framed.normal.rotate_dot accurate ha.framed.axis (by norm_num) hcarries.pole
          hcarries.finite hcarries.size hnormal haxis
        have htriangle := abs_sub_abs_le_abs_sub (w.normal.real ⬝ᵥ w.axis.real)
          (a.normal.real ⬝ᵥ a.axis.real)
        norm_num at hkept hperpendicular ⊢
        linarith
      · exact (hcarries.carried_near accurate ha.framed.axis hb.framed.axis (by norm_num)
          ha.framed.normal (by norm_num) hnormal).trans (by norm_num)

/-- The second turn brings the normals together, and it leaves the axis where it is. Both normals
    stand on the axis, so that their product lies along it and the turn is about it. -/
theorem rollStep_meets (accurate : t.Accurate) (h : w.OnAxis b) (hb : b.Oriented)
    (hclear : length (w.normal.real - b.normal.real) ≤ 9 / 10 ^ 9 ∨
      1 / 17 ≤ length (b.normal.real ⨯₃ w.normal.real)) :
    ∃ step? w', (rollStep? w b).result = .ok step? ∧ w.moveAll step?.toList = .ok w' ∧
      w'.point.Inside (2 ^ (25 : ℤ)) ∧ w'.Meets b := by
  have hinside :=
    (hb.framed.axis.abs_le_two (by norm_num)).mono (by norm_num : _ ≤ (2 : ℝ) ^ (20 : ℤ))
  have hinside' :=
    (hb.framed.normal.abs_le_two (by norm_num)).mono (by norm_num : _ ≤ (2 : ℝ) ^ (20 : ℤ))
  rcases hclear with hsame | hapart
  · have hclose := Vec3.isClose_of_near h.framed.normal.finite hinside' hsame
    exact ⟨none, w, by rw [rollStep?, if_pos hclose]; rfl, rfl,
      h.framed.point.mono (zpow_le_zpow_right₀ one_le_two (by norm_num)), h.axis_isClose hb, hclose⟩
  have hgoal := hb.framed.normal.weaken (by norm_num : (2 : ℝ) ^ (-46 : ℤ) ≤ 2 ^ (-35 : ℤ))
  have hclose := hgoal.not_isClose (by norm_num) hapart
  rcases h.framed.turnOnto accurate (by norm_num) (by norm_num) (by norm_num) h.framed.normal hgoal
    (by norm_num) hapart with ⟨step, w', degrees, p, hstep, hw, hframed, hcarries, haxis, hnormal⟩
  rcases Vec3.normal_near h.framed.normal hgoal (by norm_num) (by
    rw [Vec3.length_cross_comm]
    exact le_trans (by norm_num) hapart) with ⟨_, hcross, _⟩
  refine ⟨some step, w', ?_, hw, ?_, ?_, ?_⟩
  · rw [rollStep?, if_neg hclose, hcross]
    exact Logged.map_eq_ok hstep some
  · exact hframed.point.mono (zpow_le_zpow_right₀ one_le_two (by norm_num))
  · refine Vec3.isClose_of_near hframed.axis.finite hinside ?_
    have hacross := hcarries.across accurate h.framed.normal hgoal (by norm_num) h.framed.axis
      (by norm_num) haxis
    -- Both normals are perpendicular to the axis, the target's own up to where the axis is now.
    have hsum := abs_dot_le_add b.normal.real w.axis.real b.axis.real
    have hproduct := mul_le_mul hb.framed.normal.length_le h.axis (length_nonneg _) (by norm_num)
    have htriangle := length_sub_le w'.axis.real w.axis.real b.axis.real
    have hperpendicular := h.perpendicular
    have hperpendicular' := hb.abs_dot_le
    have haxis' := h.axis
    rw [dotProduct_comm] at hperpendicular'
    norm_num at hacross hproduct hperpendicular hperpendicular' haxis' ⊢
    linarith
  · exact Vec3.isClose_of_near hframed.normal.finite hinside'
      ((hcarries.goal accurate h.framed.normal hgoal (by norm_num) hnormal).trans (by norm_num))

/-- An alignment reaches its target if it is clear at both stages whether there is anything to turn.
    For the second stage this is asked of the normal as it is carried from the one axis to the other
    by the shortest way, which can be told without taking the turn. -/
theorem align_reaches_of_clear (accurate : t.Accurate) (ha : a.Oriented) (hb : b.Oriented)
    (haxes : Clear a.axis.real b.axis.real)
    (hnormals : Clear (carried a.axis.real b.axis.real a.normal.real) b.normal.real) :
    ∃ steps moved, (a.align b).result = .ok steps ∧ a.moveAll steps = .ok moved ∧
      moved.isClose b = true := by
  rcases axisStep_onAxis accurate ha hb haxes with
    ⟨axisStep, working, haxisStep, hworking, honAxis, hnear⟩
  have hclear := hnormals.near_or_apart (hb.framed.normal.length_le.trans (by norm_num)) hnear
  rcases rollStep_meets accurate honAxis hb hclear with ⟨rollStep, w, hrollStep, hw, hpoint, hmeets⟩
  rcases align_of_turns (turns_of_steps haxisStep hworking hrollStep hw) hpoint hb.point with
    ⟨steps, moved, halign, hmoved, hlands, haxis, hnormal⟩
  refine ⟨steps, moved, halign, hmoved, ?_⟩
  rw [isClose, hlands, haxis, hnormal, hmeets.1, hmeets.2]
  rfl

end Turns

end Connector

end SolidModel
