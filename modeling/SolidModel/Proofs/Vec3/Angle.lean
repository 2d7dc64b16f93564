import SolidModel.Proofs.Success
import SolidModel.Proofs.Vec3.Perpendicular

/-!
# Angles

That angles between vectors are always found.

An angle is the inverse cosine of a quotient that has been brought back into the range of cosines.
There are two dangers. The quotient may have run out of range, which does no harm, since an infinite
number is brought back as well as any other. Or dividend and divisor may both be zero, and then
there is nothing to bring back. But lengths that are not zero have a product that is not zero: the
root of the smallest float is so much larger than that float that its square is there to be
represented, if only just.

## Theorems

* `isFinite_clampCosine`: A quotient that is a number is brought back into range.
* `Vec3.unsignedAngle_near`: The angle between vectors of positive length is at most half a turn.
* `Vec3.signedAngle_near`: So it is when it is seen along a direction.
* `Vec3.alignmentRotation_normed`: Angle and axis of a turn are found.
-/

namespace SolidModel

open Float.Model UnpackedFloat
open scoped Matrix

theorem isNaN_stored {u : UnpackedFloat} (h : u.isFinite = true) : (stored u).isNaN = false := by
  cases u with
  | notANumber => exact absurd h Bool.false_ne_true
  | infinity s => exact absurd h Bool.false_ne_true
  | zero s =>
      rw [stored_zero]
      rfl
  | finite s m e hm => exact (signed_stored_finite s m e hm).isNaN

/-- A quotient may run out of range, but it is a number. -/
theorem isNaN_div {x y : Float} (hx : x.isFinite = true) (hy : y.isFinite = true)
    (hne : value y ≠ 0) : (x / y).isNaN = false := by
  rw [isNaN_eq_parts, parts_div]
  exact isNaN_stored (rounds_div_parts (canonical_parts x) (canonical_parts y) hx hy hne).2.1

/-- A float is a finite one, too large, too small, or no number. -/
theorem isFinite_of_not_lt {c : Float} (h : c.isNaN = false) (hlow : ¬ c < -1.0)
    (hhigh : ¬ 1.0 < c) : c.isFinite = true := by
  rw [isNaN_eq_parts] at h
  rw [lt_iff_parts] at hlow hhigh
  rw [isFinite_eq_parts]
  cases hc : parts c with
  | notANumber =>
      rw [hc] at h
      exact absurd h.symm Bool.false_ne_true
  | infinity s =>
      rw [hc] at hlow hhigh
      cases s with
      | positive => exact absurd rfl hhigh
      | negative => exact absurd rfl hlow
  | zero s => rfl
  | finite s m e hm => rfl

theorem value_minus_one : value (-1.0) = -1 := by
  have h := value_neg 1.0
  rwa [value_one] at h

namespace Vec3

/-- What is a number is brought back into the range of cosines, be it infinite. So the inverse
    cosine has something to work on whatever rounding has done before. -/
theorem isFinite_clampCosine {c : Float} (h : c.isNaN = false) :
    (clampCosine c).isFinite = true ∧ |value (clampCosine c)| ≤ 1 := by
  unfold clampCosine
  by_cases hlow : c < -1.0
  · rw [if_pos hlow, value_minus_one]
    exact ⟨rfl, by norm_num⟩
  by_cases hhigh : 1.0 < c
  · rw [if_neg hlow, if_pos hhigh, value_one]
    exact ⟨rfl, by norm_num⟩
  rw [if_neg hlow, if_neg hhigh]
  have hfinite := isFinite_of_not_lt h hlow hhigh
  rw [lt_iff_value_lt hfinite rfl, value_minus_one, not_lt] at hlow
  rw [lt_iff_value_lt rfl hfinite, value_one, not_lt] at hhigh
  exact ⟨hfinite, abs_le.mpr ⟨hlow, hhigh⟩⟩

variable {a b look v : Vec3}

/-- A length that is not zero is far from it, in terms of the smallest float. -/
theorem le_magnitude (hfinite : v.Finite) (hsize : v.square ≤ 2 ^ (100 : ℤ))
    (h : 0 < value v.magnitude) : 2 ^ (-537 : ℤ) ≤ value v.magnitude := by
  rcases near_dot_self hfinite hsize with ⟨hfd, hpd, _⟩
  have hroot : Rounds (√(value (v.dot v))) (value v.magnitude) :=
    rounds_of_isFinite (parts_sqrt (v.dot v))
      (rounds_sqrt_parts ((isFinite_eq_parts _).symm.trans hfd) hpd)
      (near_magnitude hfinite hsize).1
  have hdot : 0 < value (v.dot v) := by
    refine lt_of_le_of_ne hpd fun hzero => ?_
    have herror := hroot.abs_sub_le_mul
    have hstep : (2 : ℝ) ^ (-1075 : ℤ) < 2 ^ (-1074 : ℤ) :=
      zpow_lt_zpow_right₀ one_lt_two (by norm_num)
    rw [← hzero, Real.sqrt_zero, abs_zero, mul_zero, zero_add, sub_zero, abs_of_pos h] at herror
    exact absurd (le_value_of_pos h) (not_le.mpr (herror.trans_lt hstep))
  have hsquare : (2 : ℝ) ^ (-537 : ℤ) ≤ √(value (v.dot v)) := by
    rw [Real.le_sqrt' (by positivity), ← zpow_natCast, ← zpow_mul]
    exact le_value_of_pos hdot
  have hle := hroot.le_abs (by norm_num) (hsquare.trans (le_abs_self _))
  rwa [abs_of_pos h] at hle

theorem value_degreesPerRadian : value degreesPerRadian = 8063664102031864 * 2 ^ (-47 : ℤ) := by
  have h : parts degreesPerRadian = .finite .positive 8063664102031864 (-47) (by decide) := rfl
  rw [value, h, valueOf, signFactor, one_mul]
  norm_cast

theorem Inside.square_le_two_pow (h : v.Inside (2 ^ (9 : ℤ))) : v.square ≤ 2 ^ (100 : ℤ) :=
  h.square_le.trans (by norm_num)

/-- The quotient whose inverse cosine is taken is a number. -/
theorem isNaN_cosine (ha : a.Inside (2 ^ (9 : ℤ))) (hb : b.Inside (2 ^ (9 : ℤ)))
    (hposa : 0 < value a.magnitude) (hposb : 0 < value b.magnitude) :
    (a.dot b / (a.magnitude * b.magnitude)).isNaN = false := by
  have hdot := near_dot ha hb (by norm_num) (by norm_num) (by norm_num) (by norm_num)
  have hfa := (near_magnitude ha.finite ha.square_le_two_pow).1
  have hfb := (near_magnitude hb.finite hb.square_le_two_pow).1
  have hhigh {v : Vec3} (hv : v.Inside (2 ^ (9 : ℤ))) : value v.magnitude ≤ 2 ^ (20 : ℤ) := by
    have hnear := abs_le.mp (near_magnitude hv.finite hv.square_le_two_pow).2.2
    have hsize := hv.square_le
    have hleast : (2 : ℝ) ^ (-1000 : ℤ) ≤ 1 := zpow_le_one_of_nonpos₀ one_le_two (by norm_num)
    generalize (2 : ℝ) ^ (-1000 : ℤ) = least at *
    refine le_of_sq_le_sq ?_ (by positivity)
    norm_num at hnear hsize ⊢
    linarith
  have hlow := mul_le_mul (le_magnitude ha.finite ha.square_le_two_pow hposa)
    (le_magnitude hb.finite hb.square_le_two_pow hposb) (by positivity) hposa.le
  have hproduct := mul_le_mul (hhigh ha) (hhigh hb) hposb.le (by positivity)
  have hpos := mul_pos hposa hposb
  rw [← zpow_add₀ (two_ne_zero' ℝ)] at hlow hproduct
  rcases rounds_mul hfa hfb (by
    rw [abs_of_pos hpos]
    exact hproduct.trans (zpow_le_zpow_right₀ one_le_two (by norm_num))) with ⟨hfinite, hrounds⟩
  -- The product of the lengths is at least the smallest float, and so it is when it is rounded.
  have hle := hrounds.le_abs (k := -1074) le_rfl (hlow.trans (le_abs_self _))
  refine isNaN_div hdot.finite hfinite fun hzero => ?_
  rw [hzero, abs_zero] at hle
  exact absurd hle (not_le.mpr (by positivity))

/-- An inverse cosine in degrees. -/
theorem near_degrees [t : Trigonometry] (accurate : t.Accurate) {c : Float} (hc : c.isFinite = true)
    (hrange : |value c| ≤ 1) : (t.acos c * degreesPerRadian).isFinite = true ∧
      |value (t.acos c * degreesPerRadian)| ≤ 2 ^ (8 : ℤ) ∧
      |value (t.acos c * degreesPerRadian) - Real.arccos (value c) * value degreesPerRadian| ≤
        2 ^ (-38 : ℤ) := by
  rcases accurate.acos _ hc hrange with ⟨hfinite, hnear⟩
  have hpi := (Real.arccos_le_pi (value c)).trans Real.pi_le_four
  have hpos := Real.arccos_nonneg (value c)
  generalize Real.arccos (value c) = angle at *
  have hangle : |value (t.acos c)| ≤ 17 / 4 := by
    have htriangle := abs_sub_abs_le_abs_sub (value (t.acos c)) angle
    rw [abs_of_nonneg hpos] at htriangle
    norm_num at hnear
    linarith
  have hfactor : |value degreesPerRadian| ≤ 58 := by
    rw [value_degreesPerRadian, abs_of_nonneg (by positivity)]
    norm_num
  -- No angle is larger than half a turn, so that its degrees are far from the largest numbers.
  have hproduct : |value (t.acos c) * value degreesPerRadian| ≤ 2 ^ (8 : ℤ) := by
    rw [abs_mul]
    exact (mul_le_mul hangle hfactor (abs_nonneg _) (by positivity)).trans (by norm_num)
  rcases rounds_mul hfinite rfl (hproduct.trans (zpow_le_zpow_right₀ one_le_two (by norm_num))) with
    ⟨hfinite', hrounds⟩
  refine ⟨hfinite', hrounds.abs_le (by norm_num) hproduct, ?_⟩
  have hround := hrounds.abs_sub_le (by norm_num) hproduct
  have hshare := mul_le_mul hnear hfactor (abs_nonneg _) (by positivity)
  have htriangle := abs_sub_le (value (t.acos c * degreesPerRadian))
    (value (t.acos c) * value degreesPerRadian) (angle * value degreesPerRadian)
  rw [← sub_mul, abs_mul] at htriangle
  norm_num at hround hshare ⊢
  linarith

/-- The angle between vectors of positive length is found, and it is not too large. -/
theorem unsignedAngle_near [t : Trigonometry] (accurate : t.Accurate) (ha : a.Inside (2 ^ (9 : ℤ)))
    (hb : b.Inside (2 ^ (9 : ℤ))) (hposa : 0 < value a.magnitude) (hposb : 0 < value b.magnitude) :
    (unsignedAngle a b).isFinite = true ∧ |value (unsignedAngle a b)| ≤ 2 ^ (8 : ℤ) := by
  rcases isFinite_clampCosine (isNaN_cosine ha hb hposa hposb) with ⟨hfinite, hrange⟩
  rcases near_degrees accurate hfinite hrange with ⟨hfinite', hsize, _⟩
  exact ⟨hfinite', hsize⟩

/-- The computed square of a direction. -/
theorem Normed.dot_self_mem (hlook : look.Normed (2 ^ (-44 : ℤ))) :
    (look.dot look).isFinite = true ∧ 1 - 2 ^ (-40 : ℤ) ≤ value (look.dot look) := by
  rcases hlook.square_mem with ⟨hlow, hhigh⟩
  rcases near_dot_self hlook.finite (by norm_num at hhigh ⊢; linarith) with ⟨hfs, _, hes⟩
  have hes' := abs_le.mp hes
  have hleast : (2 : ℝ) ^ (-1070 : ℤ) ≤ 2 ^ (-50 : ℤ) :=
    zpow_le_zpow_right₀ one_le_two (by norm_num)
  refine ⟨hfs, ?_⟩
  generalize (2 : ℝ) ^ (-1070 : ℤ) = least at *
  norm_num at hes' hleast hlow hhigh ⊢
  linarith

/-- The computed share of a direction in a vector. It is small if their product is. -/
theorem Inside.share_near (hv : v.Inside (2 ^ (1 : ℤ))) (hlook : look.Normed (2 ^ (-44 : ℤ))) :
    Near (v.dot look / look.dot look) (value (v.dot look / look.dot look)) 4 0 ∧
      |value (v.dot look / look.dot look)| ≤ 2 * |v.real ⬝ᵥ look.real| + 2 ^ (-44 : ℤ) := by
  have hinside := hlook.abs_le_two (by norm_num)
  rcases hlook.dot_self_mem with ⟨hfs, hsquare⟩
  have hpos : 0 < value (look.dot look) := lt_of_lt_of_le (by norm_num) hsquare
  have hdot := near_dot hv hinside (by norm_num) (by norm_num) (by norm_num) (by norm_num)
  have halong := abs_dot_le v.real look.real
  have hlength := mul_le_mul hv.length_le hlook.length_le (length_nonneg _) (by positivity)
  -- The divisor is at least one half, since it is the square of a length close to one.
  have hquotient : |value (v.dot look) / value (look.dot look)| ≤
      2 * |v.real ⬝ᵥ look.real| + 2 ^ (-45 : ℤ) := by
    have h := abs_sub_abs_le_abs_sub (value (v.dot look)) (v.real ⬝ᵥ look.real)
    have herror := hdot.error
    rw [abs_div, abs_of_pos hpos, div_le_iff₀ hpos]
    have hshare := mul_le_mul_of_nonneg_left hsquare
      (by positivity : 0 ≤ 2 * |v.real ⬝ᵥ look.real| + 2 ^ (-45 : ℤ))
    have hnonneg := abs_nonneg (v.real ⬝ᵥ look.real)
    norm_num at herror hshare ⊢
    linarith
  have hquotient' : |value (v.dot look) / value (look.dot look)| ≤ 2 ^ (4 : ℤ) := by
    norm_num at hlength hquotient ⊢
    linarith
  rcases rounds_div hdot.finite hfs hpos.ne'
    (hquotient'.trans (zpow_le_zpow_right₀ one_le_two (by norm_num))) with ⟨hfq, hrounds⟩
  refine ⟨Near.self hfq (hrounds.abs_le (by norm_num) hquotient'), ?_⟩
  have hround := hrounds.abs_sub_le (by norm_num) hquotient'
  have hsize := abs_sub_abs_le_abs_sub (value (v.dot look / look.dot look))
    (value (v.dot look) / value (look.dot look))
  norm_num at hround hquotient ⊢
  linarith

/-- To find the part of a vector perpendicular to a direction is to take away a multiple of the
    direction, and there is nothing to take away from a vector that is perpendicular to it
    already. -/
theorem reject_near (hv : v.Inside (2 ^ (1 : ℤ))) (hlook : look.Normed (2 ^ (-44 : ℤ))) :
    (v.reject look).Finite ∧ ∃ q : ℝ, |q| ≤ 2 * |v.real ⬝ᵥ look.real| + 2 ^ (-44 : ℤ) ∧
      length ((v.reject look).real - (v.real - q • look.real)) ≤ 2 ^ (-44 : ℤ) := by
  have hinside := hlook.abs_le_two (by norm_num)
  rcases hlook.dot_self_mem with ⟨hfs, hsquare⟩
  rcases hv.share_near hlook with ⟨hq, hsize⟩
  -- The share is taken as it is computed. That it is the right one is not needed here.
  obtain ⟨q, hqdef⟩ : ∃ q, v.dot look / look.dot look = q := ⟨_, rfl⟩
  rw [hqdef] at hq hsize
  have hcomponent {s p : Float} (hs : s.isFinite = true) (hp : p.isFinite = true)
      (hs' : |value s| ≤ 2 ^ (1 : ℤ)) (hp' : |value p| ≤ 2 ^ (1 : ℤ)) :
      (s - p * q).isFinite = true ∧
        |value (s - p * q) - (value s - value q * value p)| ≤ 2 ^ (-45 : ℤ) := by
    have h := ((Near.self hs hs').raise le_rfl (by norm_num : (1 : ℤ) ≤ 1 + 4)).sub
      ((Near.self hp hp').mul hq (by norm_num) (by norm_num) (by norm_num) (by norm_num))
      (by norm_num) (by norm_num) (by norm_num) (by norm_num)
    rw [mul_comm (value q)]
    exact ⟨h.finite, h.error.trans (by norm_num)⟩
  rcases hcomponent hv.finite.1 hinside.finite.1 hv.x hinside.x with ⟨hfx, hx⟩
  rcases hcomponent hv.finite.2.1 hinside.finite.2.1 hv.y hinside.y with ⟨hfy, hy⟩
  rcases hcomponent hv.finite.2.2 hinside.finite.2.2 hv.z hinside.z with ⟨hfz, hz⟩
  have hnonzero : ¬ (look.dot look == 0.0) = true := by
    rw [beq_iff_value_eq hfs rfl, value_zero]
    exact (lt_of_lt_of_le (by norm_num) hsquare).ne'
  rw [reject, if_neg hnonzero]
  simp only [hqdef]
  refine ⟨⟨hfx, hfy, hfz⟩, value q, hsize, ?_⟩
  have herror : length ((v - look.times q).real - (v.real - value q • look.real)) ≤
      2 * 2 ^ (-45 : ℤ) := by
    refine length_le_of_abs_le fun i => ?_
    fin_cases i
    · exact hx
    · exact hy
    · exact hz
  exact herror.trans (by norm_num)

/-- The part of a vector perpendicular to a direction is not too long. -/
theorem reject_inside (hv : v.Inside (2 ^ (1 : ℤ))) (hlook : look.Normed (2 ^ (-44 : ℤ))) :
    (v.reject look).Inside (2 ^ (9 : ℤ)) := by
  rcases reject_near hv hlook with ⟨hfinite, q, hq, hnear⟩
  refine inside_iff.mpr ⟨hfinite, fun i => (abs_apply_le_length _ i).trans ?_⟩
  have halong := abs_dot_le v.real look.real
  have hproduct := mul_le_mul hv.length_le hlook.length_le (length_nonneg _) (by positivity)
  have hshare := mul_le_mul hq hlook.length_le (length_nonneg _) (by positivity)
  have htriangle := length_sub_le (v.reject look).real (v.real - q • look.real) 0
  have htriangle' := length_sub_le v.real 0 (q • look.real)
  rw [sub_zero, sub_zero] at htriangle
  rw [sub_zero, zero_sub, length_neg, length_smul] at htriangle'
  have hlength := hv.length_le
  norm_num at hproduct hshare hlength hnear ⊢
  linarith

/-- The turn between vectors of length one is found, and it is not too large. -/
theorem signedAngle_near [t : Trigonometry] (accurate : t.Accurate) {ε : ℝ} (ha : a.Normed ε)
    (hb : b.Normed ε) (hε : ε ≤ 1 / 4) (hlook : look.Normed (2 ^ (-44 : ℤ))) :
    (signedAngle a b look).isFinite = true ∧ |value (signedAngle a b look)| ≤ 2 ^ (8 : ℤ) := by
  have hpos {v : Vec3} (hv : v.Normed ε) : 0 < value v.magnitude :=
    lt_of_lt_of_le (by norm_num) (hv.magnitude_mem hε).2.1
  have hinside {v : Vec3} (hv : v.Normed ε) : v.Inside (2 ^ (1 : ℤ)) := hv.abs_le_two (by linarith)
  have hinside' {v : Vec3} (hv : v.Normed ε) : v.Inside (2 ^ (9 : ℤ)) :=
    (hinside hv).mono (by norm_num)
  have hflata := reject_inside (hinside ha) hlook
  have hflatb := reject_inside (hinside hb) hlook
  obtain ⟨angle, hangle⟩ : ∃ angle,
      (if 0.0 < (a.reject look).magnitude && 0.0 < (b.reject look).magnitude then
        unsignedAngle (a.reject look) (b.reject look) else unsignedAngle a b) = angle := ⟨_, rfl⟩
  -- Where one vector has no part across the look, the vectors are taken as they are.
  have hnear : angle.isFinite = true ∧ |value angle| ≤ 2 ^ (8 : ℤ) := by
    rw [← hangle]
    split
    · next h =>
        rw [Bool.and_eq_true, decide_eq_true_iff, decide_eq_true_iff] at h
        rw [lt_iff_value_lt rfl (near_magnitude hflata.finite hflata.square_le_two_pow).1,
          lt_iff_value_lt rfl (near_magnitude hflatb.finite hflatb.square_le_two_pow).1,
          value_zero] at h
        exact unsignedAngle_near accurate hflata hflatb h.1 h.2
    · exact unsignedAngle_near accurate (hinside' ha) (hinside' hb) (hpos ha) (hpos hb)
  have hsigned : signedAngle a b look = if (a.cross b).dot look < 0.0 then -angle else angle := by
    rw [← hangle]
    rfl
  rw [hsigned]
  split
  · rw [isFinite_neg, value_neg, abs_neg]
    exact hnear
  · exact hnear

/-- Angle and axis of a turn are found. Nothing is said about which they are: this is enough to know
    that the turn succeeds and keeps directions what they are. -/
theorem alignmentRotation_normed [t : Trigonometry] (accurate : t.Accurate) {ε : ℝ}
    {fallback inclined reference : Vec3} (hfallback : fallback.Normed ε)
    (hinclined : inclined.Normed ε) (hreference : reference.Normed ε) (hε : ε ≤ 1 / 4) :
    ∃ angle axis, (alignmentRotation fallback inclined reference).result = .ok (angle, axis) ∧
      angle.isFinite = true ∧ |value angle| ≤ 2 ^ (8 : ℤ) ∧ axis.Normed (2 ^ (-44 : ℤ)) := by
  rcases alignmentAxis_normed hfallback hinclined hreference hε with ⟨axis, haxis, hnormed⟩
  rcases signedAngle_near accurate hinclined hreference hε hnormed with ⟨hfinite, hsize⟩
  refine ⟨signedAngle inclined reference axis, axis, ?_, hfinite, hsize, hnormed⟩
  refine Logged.bind_eq_ok_iff.mpr ⟨axis, haxis, ?_⟩
  refine Logged.bind_eq_ok_iff.mpr ⟨signedAngle inclined reference axis, ?_, rfl⟩
  rw [Logged.ofExcept_result, angleBetween, hinclined.isNull_eq_false hε,
    hreference.isNull_eq_false hε]
  rfl

end Vec3

end SolidModel
