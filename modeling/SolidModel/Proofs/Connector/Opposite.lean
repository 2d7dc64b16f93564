import SolidModel.Proofs.Connector.Reaching
import SolidModel.Proofs.Vec3.Opposite

/-!
# Aligning Opposites

Where alignment reaches its target although no normal tells it how to turn.

Opposite axes have no normal, and any half turn about a perpendicular brings them together. But it
has to be half a turn, and no less. The cosine of opposite directions is known to the last bit, so
that it is. If the axes are not quite opposite, an angle is found that may be short of half a turn
by more than the tolerance.

Opposite normals have no normal either, and here it matters which perpendicular the turn is about:
the axis of the target has to be taken, so that the axes stay together. It is given by name,
together with the angle, and nothing is found that could be off. So the normals may be off a little,
as long as they still count as antiparallel.

Together with the directions that hardly differ and those that are apart this makes three cases
where it can be told that the target is reached. Between them lie directions that are almost the
same or almost opposite, and there it may be missed.

## Main definitions

* `Connector.Decided`: It is clear what is to be done about two directions.
* `Connector.Settled`: It can be told that an alignment reaches its target.

## Theorems

* `Connector.axisStep_opposite`: Opposite axes are brought together.
* `Connector.rollStep_opposite`: So are opposite normals, and the axes stay together.
* `Connector.align_reaches`: An alignment succeeds, and it reaches its target wherever this can be
  told.
-/

namespace SolidModel

open scoped Matrix

theorem eq_neg_of_length_add_le_zero {x y : Fin 3 → ℝ} (h : length (x + y) ≤ 0) : x = -y := by
  rw [length_eq_norm, norm_le_zero_iff] at h
  exact eq_neg_of_add_eq_zero_left ((WithLp.toLp_eq_zero 2).mp h)

namespace Vec3

variable {f g : Vec3} {ε δ : ℝ}

/-- Opposite directions are not close. -/
theorem Normed.not_isClose_of_opposite (hg : g.Normed ε) (hε : ε ≤ 1 / 16)
    (h : length (f.real + g.real) ≤ 1 / 16) : ¬ f.isClose g = true := fun hclose => by
  have hnear := near_of_isClose (hg.abs_le_two (by linarith)) hclose
  have hsplit : (2 : ℝ) • g.real = (f.real + g.real) - (f.real - g.real) := by module
  have htriangle := length_sub_le (f.real + g.real) 0 (f.real - g.real)
  have hlength := (abs_le.mp hg.abs_length_sub_one_le).1
  rw [← hsplit, length_smul, abs_two, sub_zero, zero_sub, length_neg] at htriangle
  norm_num at hnear
  linarith

end Vec3

namespace Connector

variable {a b w : Connector}

/-- It is clear what is to be done about two directions: whether they differ is clear, or else they
    are opposite, up to an error. -/
inductive Decided (error : ℝ) (x y : Fin 3 → ℝ) : Prop
  /-- They hardly differ, or they are apart. -/
  | clear (h : Clear x y)
  /-- They are opposite, up to the error. -/
  | opposite (h : length (x + y) ≤ error)

section Stages

variable [t : Trigonometry]

/-- Half a turn brings opposite axes together. It is about some perpendicular, and wherever that
    takes the normal, it keeps it perpendicular to the axis. -/
theorem axisStep_opposite (accurate : t.Accurate) (ha : a.Oriented) (hb : b.Oriented)
    (h : a.axis.real = -b.axis.real) :
    ∃ step? w, (axisStep? a b).result = .ok step? ∧ a.moveAll step?.toList = .ok w ∧
      w.OnAxis b := by
  have hclose : ¬ a.axis.isClose b.axis = true :=
    hb.framed.axis.not_isClose_of_opposite (by norm_num) (by
      rw [h, neg_add_cancel, length_zero]
      norm_num)
  rcases Vec3.alignmentRotation_opposite accurate ha.framed.axis hb.framed.axis (by norm_num) h with
    ⟨angle, pole, p, hrotation, hp, hhalf, hpole, hacross⟩
  rcases ha.framed.turnOnto_of_rotation accurate (by norm_num) (by norm_num) (by norm_num)
    hrotation hp hpole hhalf.neg.finite hhalf.neg.size with
    ⟨step, w, hstep, hw, hframed, haxis, hnormal⟩
  refine ⟨some step, w, ?_, hw, ⟨⟨hframed.point, ?_, ?_⟩, ?_, ?_⟩⟩
  · rw [axisStep?, if_neg hclose]
    exact Logged.map_eq_ok hstep some
  · exact hframed.axis.weaken (by norm_num)
  · exact hframed.normal.weaken (by norm_num)
  · -- The axis of the target is where the axis was, on the other side.
    have hturned :=
      hhalf.neg.rotate_across accurate hpole ha.framed.axis (by norm_num) haxis hacross
    rw [show b.axis.real = -a.axis.real by rw [h, neg_neg], sub_neg_eq_add]
    norm_num at hturned ⊢
    linarith
  · have hkept := ha.framed.normal.rotate_dot accurate ha.framed.axis (by norm_num) hpole
      hhalf.neg.finite hhalf.neg.size hnormal haxis
    have hperpendicular := ha.abs_dot_le
    rw [dotProduct_comm] at hperpendicular
    have htriangle := abs_sub_abs_le_abs_sub (w.normal.real ⬝ᵥ w.axis.real)
      (a.normal.real ⬝ᵥ a.axis.real)
    norm_num at hkept hperpendicular ⊢
    linarith

/-- Half a turn about the axis brings opposite normals together, and it leaves the axis where it is.
    The angle and the axis are given by name, so that neither of them is computed. -/
theorem rollStep_opposite (accurate : t.Accurate) (h : w.OnAxis b) (hb : b.Oriented)
    (hopposite : length (w.normal.real + b.normal.real) ≤ 2 ^ (-41 : ℤ)) :
    ∃ step? w', (rollStep? w b).result = .ok step? ∧ w.moveAll step?.toList = .ok w' ∧
      w'.Meets b := by
  have hinside :=
    (hb.framed.axis.abs_le_two (by norm_num)).mono (by norm_num : _ ≤ (2 : ℝ) ^ (20 : ℤ))
  have hinside' :=
    (hb.framed.normal.abs_le_two (by norm_num)).mono (by norm_num : _ ≤ (2 : ℝ) ^ (20 : ℤ))
  have hgoal := hb.framed.normal.weaken (by norm_num : (2 : ℝ) ^ (-46 : ℤ) ≤ 2 ^ (-35 : ℤ))
  have hclose := hgoal.not_isClose_of_opposite (by norm_num) (hopposite.trans (by norm_num))
  have hcross := Vec3.normal_of_opposite h.framed.normal hgoal (by norm_num) hopposite
  have hhalf : Vec3.HalfTurn 180.0 := ⟨rfl, by rw [value_halfTurn]; norm_num⟩
  rcases Vec3.normalized_normed (hb.framed.axis.weaken (by norm_num)) with ⟨p, hp, hpole, hsame⟩
  rcases h.framed.rotateAbout accurate (by norm_num) (by norm_num) (by norm_num) hpole hhalf.finite
    hhalf.size with ⟨w', hw', hframed⟩
  rcases rotateAbout_eq_ok_iff.mp hw' with ⟨_, haxis, hnormal⟩
  -- The pole is the axis of the target, and that is where the axis is.
  have hnear : length (w.axis.real - p.real) ≤ 2 ^ (-32 : ℤ) := by
    have htriangle := length_sub_le w.axis.real b.axis.real p.real
    have haxis := h.axis
    rw [← length_neg (p.real - b.axis.real), neg_sub] at hsame
    norm_num at hsame haxis ⊢
    linarith
  refine ⟨some (.rotateAbout 180.0 b.axis), w', ?_, moveAll_toList_some ?_, ?_, ?_⟩
  · rw [rollStep?, if_neg hclose, hcross]
    rfl
  · rw [move_rotateAbout, hp, Except.mapError_eq_ok_iff]
    exact hw'
  · refine Vec3.isClose_of_near hframed.axis.finite hinside ?_
    have hturned := hhalf.rotate_along accurate hpole h.framed.axis (by norm_num) haxis hnear
    have htriangle := length_sub_le w'.axis.real p.real b.axis.real
    norm_num at hturned hsame ⊢
    linarith
  · refine Vec3.isClose_of_near hframed.normal.finite hinside' ?_
    have hacross : |w.normal.real ⬝ᵥ p.real| ≤ 2 ^ (-31 : ℤ) := by
      have hadd := abs_dot_le_add w.normal.real p.real w.axis.real
      have hshare := mul_le_mul h.framed.normal.length_le hnear (length_nonneg _) (by positivity)
      have hperpendicular := h.perpendicular
      rw [← length_neg (w.axis.real - p.real), neg_sub] at hshare
      norm_num at hshare hperpendicular ⊢
      linarith
    have hturned := hhalf.rotate_across accurate hpole h.framed.normal (by norm_num) hnormal hacross
    have htriangle := length_sub_le w'.normal.real (-w.normal.real) b.normal.real
    rw [sub_neg_eq_add, ← length_neg (-w.normal.real - b.normal.real), neg_sub', neg_neg,
      sub_neg_eq_add] at htriangle
    norm_num at hturned hopposite ⊢
    linarith

theorem axisStep_decided (accurate : t.Accurate) (ha : a.Oriented) (hb : b.Oriented)
    (h : Decided 0 a.axis.real b.axis.real) :
    ∃ step? w, (axisStep? a b).result = .ok step? ∧ a.moveAll step?.toList = .ok w ∧
      w.OnAxis b := by
  cases h with
  | clear hclear =>
      rcases axisStep_onAxis accurate ha hb hclear with ⟨step?, w, hstep, hw, honAxis, _⟩
      exact ⟨step?, w, hstep, hw, honAxis⟩
  | opposite hopposite =>
      exact axisStep_opposite accurate ha hb (eq_neg_of_length_add_le_zero hopposite)

theorem rollStep_decided (accurate : t.Accurate) (h : w.OnAxis b) (hb : b.Oriented)
    (hdecided : Decided (2 ^ (-41 : ℤ)) w.normal.real b.normal.real) :
    ∃ step? w', (rollStep? w b).result = .ok step? ∧ w.moveAll step?.toList = .ok w' ∧
      w'.Meets b := by
  cases hdecided with
  | clear hclear =>
      have hlength := hb.framed.normal.length_le.trans (by norm_num : _ ≤ (17 / 16 : ℝ))
      rcases rollStep_meets accurate h hb (hclear.near_or_apart hlength (by
        rw [sub_self, length_zero]
        positivity)) with ⟨step?, w', hstep, hw', _, hmeets⟩
      exact ⟨step?, w', hstep, hw', hmeets⟩
  | opposite hopposite => exact rollStep_opposite accurate h hb hopposite

/-- Where it can be told that an alignment reaches its target, from the directions that it starts
    with and the normal that its first step leaves.

    This leaves a band of directions open, all of them within four degrees of one line. Axes are in
    it if they are further than `10 ^ -10` from each other, have a product shorter than a sixteenth,
    and are not exactly opposite. Normals are in it after the first step on the same terms, except
    that they count as opposite up to `2 ^ -41`. Axes in the band that are close under the tolerance
    are settled if the normals are close as well, and otherwise open. -/
inductive Settled (a between b : Connector) : Prop
  /-- At most the axes are to be turned. -/
  | axis (haxes : a.axis.isClose b.axis = true ∨ Decided 0 a.axis.real b.axis.real)
      (hnormals : between.normal.isClose b.normal = true)
  /-- Both may have to be turned. -/
  | both (haxes : Decided 0 a.axis.real b.axis.real)
      (hnormals : Decided (2 ^ (-41 : ℤ)) between.normal.real b.normal.real)

/-- If it can be told, then the second step leads to where the directions meet. -/
theorem Settled.meets (accurate : t.Accurate) {step? : Option Transformation} {between : Connector}
    (h : Settled a between b) (ha : a.Oriented) (hb : b.Oriented)
    (hstep : (axisStep? a b).result = .ok step?) (hbetween : a.moveAll step?.toList = .ok between) :
    ∃ rollStep w, (rollStep? between b).result = .ok rollStep ∧
      between.moveAll rollStep.toList = .ok w ∧ w.Meets b := by
  have honAxis (haxes : Decided 0 a.axis.real b.axis.real) : between.OnAxis b := by
    rcases axisStep_decided accurate ha hb haxes with ⟨_, _, hstep', hbetween', honAxis⟩
    cases hstep.symm.trans hstep'
    cases hbetween.symm.trans hbetween'
    exact honAxis
  cases h with
  | axis haxes hnormals =>
      refine ⟨none, between, by rw [rollStep?, if_pos hnormals]; rfl, rfl, ?_, hnormals⟩
      rcases haxes with hclose | hdecided
      · rw [axisStep?, if_pos hclose] at hstep
        cases hstep
        cases hbetween
        exact hclose
      · exact (honAxis hdecided).axis_isClose hb
  | both haxes hnormals => exact rollStep_decided accurate (honAxis haxes) hb hnormals

/-- Whatever directions two oriented connectors have, an alignment succeeds, the steps that it hands
    out can be taken, and they bring the points together. Here `between` is where the first step
    leads, and `moved` is where all of them do. The last part is about the directions: the whole
    connectors come together wherever `Settled` tells so.

    What it leaves open is the band that is described there. Its axes are almost the same or almost
    opposite, but neither within `10 ^ -10` of each other nor exact opposites. So are its normals
    after the first step, except that those which are opposite up to `2 ^ -41` do not belong to it.
    In the band the target may be missed: the roll is about the product of the normals, and if the
    axes are merely close, that product need not be near to the axis of the target. -/
theorem align_reaches (accurate : t.Accurate) (ha : a.Oriented) (hb : b.Oriented) :
    ∃ step? between steps moved, (axisStep? a b).result = .ok step? ∧
      a.moveAll step?.toList = .ok between ∧ (a.align b).result = .ok steps ∧
      a.moveAll steps = .ok moved ∧ moved.point.isClose b.point = true ∧
      (Settled a between b → moved.isClose b = true) := by
  rcases align_reaches_iff accurate ha hb with
    ⟨turned, w, steps, moved, hturns, halign, hmoved, hpoint, hiff⟩
  rcases axisStep_isTurn accurate ha.framed.axis hb.framed.axis (by norm_num) with
    ⟨step?, hstep, hturn⟩
  rcases ha.framed.moveAll accurate (by norm_num) (by norm_num) (by norm_num) hturn with
    ⟨between, hbetween, _⟩
  refine ⟨step?, between, steps, moved, hstep, hbetween, halign, hmoved, hpoint,
    fun hsettled => hiff.mpr ?_⟩
  rcases hsettled.meets accurate ha hb hstep hbetween with ⟨rollStep, w', hroll, hw', hmeets⟩
  cases hturns.symm.trans (turns_of_steps hstep hbetween hroll hw')
  exact hmeets

end Stages

/-- A connector beside the world, with its normal turned to the other side. -/
theorem align_reaches_beside :
    let b : Connector := ⟨⟨1, 0, 1⟩, .axisZ, ⟨-1, 0, 0⟩⟩
    Trigonometry.rounded.Accurate ∧ world.Oriented ∧ b.Oriented ∧ Settled world world b ∧
      ∃ steps moved, (@align Trigonometry.rounded world b).result = .ok steps ∧
        @moveAll Trigonometry.rounded world steps = .ok moved ∧ moved.isClose b = true := by
  have hzero : |value 0.0| ≤ 10 ^ 6 := by
    rw [value_zero]
    norm_num
  have hone : |value 1.0| ≤ 10 ^ 6 := by
    rw [value_one]
    norm_num
  have hworld : world.Oriented :=
    ⟨⟨⟨rfl, rfl, rfl⟩, hzero, hzero, hzero⟩, ⟨rfl, rfl, rfl⟩, ⟨rfl, rfl, rfl⟩, by decide +kernel,
      by decide +kernel, by decide +kernel⟩
  have hbeside : (⟨⟨1, 0, 1⟩, .axisZ, ⟨-1, 0, 0⟩⟩ : Connector).Oriented :=
    ⟨⟨⟨rfl, rfl, rfl⟩, hone, hzero, hone⟩, ⟨rfl, rfl, rfl⟩, ⟨rfl, rfl, rfl⟩, by decide +kernel,
      by decide +kernel, by decide +kernel⟩
  have hsettled : Settled world world ⟨⟨1, 0, 1⟩, .axisZ, ⟨-1, 0, 0⟩⟩ := by
    refine .both (.clear (.same ?_)) (.opposite ?_)
    · change length (Vec3.axisZ.real - Vec3.axisZ.real) ≤ _
      rw [sub_self, length_zero]
      norm_num
    · have hopposite : (⟨-1, 0, 0⟩ : Vec3).real = -Vec3.axisX.real := by
        have hminus : value (-1) = -1 := value_minus_one
        have hzero : value 0 = 0 := value_zero
        rw [Vec3.real, Vec3.real, Vec3.axisX, value_one, value_zero, hminus, hzero]
        ext i
        fin_cases i <;> simp
      change length (Vec3.axisX.real + (⟨-1, 0, 0⟩ : Vec3).real) ≤ _
      rw [hopposite, add_neg_cancel, length_zero]
      positivity
  refine ⟨Trigonometry.rounded_accurate, hworld, hbeside, hsettled, ?_⟩
  rcases align_reaches (t := Trigonometry.rounded) Trigonometry.rounded_accurate hworld hbeside with
    ⟨step?, between, steps, moved, hstep, hbetween, halign, hmoved, _, hreaches⟩
  -- The axes agree, so that the first step is none.
  have hclose : world.axis.isClose Vec3.axisZ = true := by decide +kernel
  unfold axisStep? at hstep
  rw [if_pos hclose] at hstep
  cases hstep
  cases hbetween
  exact ⟨steps, moved, halign, hmoved, hreaches hsettled⟩

end Connector

end SolidModel
