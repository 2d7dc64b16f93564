import SolidModel.Proofs.Vec3.Angle

/-!
# Cosines

How exact the angle between two directions is.

The inverse cosine loses half the digits where the directions lie on one line, and no bound on its
error would be good for anything there. But the angle is not what counts. It is found in order to be
turned by, and what a turn makes use of is its cosine and its sine. The cosine is the product of the
directions, and this is known well, whatever the angle may be. The sine is the root of what is left,
and this is known as well as the directions are apart.

The directions are flattened before their angle is taken. This takes nothing from them if the
direction to look along is their normal: what is left to take away is itself an error, and it enters
their product by its square.

## Theorems

* `Vec3.Normed.near_cosine`: The quotient of product and lengths.
* `Vec3.abs_dot_sub_smul_le`: What is taken from a product with parts along a direction.
* `Vec3.Normed.reject_dot`: Flattening along the normal makes no difference.
* `Vec3.signedAngle_arccos`: The angle is the inverse of a cosine that is near the product.
* `Vec3.near_turn_back`: Cosine and sine, for the turn back.
-/

namespace SolidModel

open scoped Matrix

namespace Vec3

variable {a b look : Vec3} {ε η : ℝ}

/-- A number that is brought back into the range of cosines comes nearer to every number there. -/
theorem clampCosine_near {c : Float} {x : ℝ} (hc : c.isFinite = true) (hx : |x| ≤ 1) :
    |value (clampCosine c) - x| ≤ |value c - x| := by
  have hx' := abs_le.mp hx
  unfold clampCosine
  by_cases hlow : c < -1.0
  · rw [if_pos hlow, value_minus_one]
    rw [lt_iff_value_lt hc rfl, value_minus_one] at hlow
    rw [abs_of_nonpos (by linarith), abs_of_nonpos (by linarith)]
    linarith
  by_cases hhigh : 1.0 < c
  · rw [if_neg hlow, if_pos hhigh, value_one]
    rw [lt_iff_value_lt rfl hc, value_one] at hhigh
    rw [abs_of_nonneg (by linarith), abs_of_nonneg (by linarith)]
    linarith
  rw [if_neg hlow, if_neg hhigh]

/-- The computed length of a vector of length one. -/
theorem Normed.magnitude_near (ha : a.Normed η) (hη : η ≤ 2 ^ (-30 : ℤ)) :
    a.magnitude.isFinite = true ∧ |value a.magnitude - 1| ≤ η + 2 ^ (-46 : ℤ) := by
  have hη' := (abs_nonneg _).trans ha.near
  rcases ha.square_mem with ⟨hlow, hhigh⟩
  have hsize : a.square ≤ 2 ^ (100 : ℤ) := by
    norm_num at hη ⊢
    linarith
  have hnear := (magnitude_pos ha.finite (by norm_num at hη ⊢; linarith) hsize).2
  have hone := ha.abs_length_sub_one_le
  have htriangle := abs_sub_le (value a.magnitude) (length a.real) 1
  have hlength := ha.length_le
  refine ⟨(near_magnitude ha.finite hsize).1, ?_⟩
  norm_num at hη hnear ⊢
  linarith

/-- A product of numbers that are near one, with an error of its own. -/
theorem abs_sub_one_le_of_mul {x y z δ : ℝ} (hx : |x - 1| ≤ δ) (hy : |y - 1| ≤ δ)
    (hδ : δ ≤ 1 / 16) (h : |z - x * y| ≤ ε) : |z - 1| ≤ 33 / 16 * δ + ε := by
  have hsplit : x * y - 1 = (x - 1) * (y - 1) + (x - 1) + (y - 1) := by ring
  have hproduct := mul_le_mul hx (hy.trans hδ) (abs_nonneg _) ((abs_nonneg _).trans hx)
  have hsum := abs_add_le ((x - 1) * (y - 1) + (x - 1)) (y - 1)
  have hsum' := abs_add_le ((x - 1) * (y - 1)) (x - 1)
  have htriangle := abs_sub_le z (x * y) 1
  rw [abs_mul] at hsum'
  rw [← hsplit] at hsum
  linarith

/-- To divide by what is near one makes little difference. -/
theorem abs_div_sub_self_le {x y δ : ℝ} (hx : |x| ≤ 17 / 16) (hy : |y - 1| ≤ δ) (hδ : δ ≤ 1 / 32) :
    |x / y - x| ≤ 10 / 9 * δ := by
  have hy' := abs_le.mp hy
  have hpos : 0 < y := by linarith
  have hsplit : x / y - x = -(x * (y - 1)) / y := by
    field_simp
    ring
  have hproduct := mul_le_mul hx hy (abs_nonneg _) (by norm_num)
  have hshare := mul_le_mul_of_nonneg_left (by linarith : 31 / 32 ≤ y) ((abs_nonneg _).trans hy)
  rw [hsplit, abs_div, abs_neg, abs_mul, abs_of_pos hpos, div_le_iff₀ hpos]
  linarith

/-- The cosine of the angle between vectors of length one, as it is computed: their product over
    their lengths. Dividing by lengths that are nearly one costs no more than the lengths are
    off. -/
theorem Normed.near_cosine (ha : a.Normed η) (hb : b.Normed η) (hη : η ≤ 2 ^ (-30 : ℤ)) :
    (a.dot b / (a.magnitude * b.magnitude)).isFinite = true ∧
      |value (a.dot b / (a.magnitude * b.magnitude)) - a.real ⬝ᵥ b.real| ≤
        3 * η + 2 ^ (-43 : ℤ) := by
  have hη' := (abs_nonneg _).trans ha.near
  have hlength {v : Vec3} (hv : v.Normed η) : Near v.magnitude (value v.magnitude) 1 0 := by
    rcases hv.magnitude_near hη with ⟨hfinite, hone⟩
    refine Near.self hfinite ?_
    have hsub := abs_sub_abs_le_abs_sub (value v.magnitude) 1
    rw [abs_one] at hsub
    norm_num at hη hone ⊢
    linarith
  have hproduct :=
    (hlength ha).mul (hlength hb) (by norm_num) (by norm_num) (by norm_num) (by norm_num)
  -- Both lengths are one, and so is their product.
  have hone := abs_sub_one_le_of_mul (ha.magnitude_near hη).2 (hb.magnitude_near hη).2
    (by norm_num at hη ⊢; linarith) (hproduct.error.trans (by norm_num : _ ≤ (2 : ℝ) ^ (-46 : ℤ)))
  have hdot :=
    near_dot (ha.abs_le_two (hη.trans (by norm_num))) (hb.abs_le_two (hη.trans (by norm_num)))
    (by norm_num) (by norm_num) (by norm_num) (by norm_num)
  have herror := hdot.error
  obtain ⟨product, hp⟩ : ∃ product, value (a.magnitude * b.magnitude) = product := ⟨_, rfl⟩
  obtain ⟨dot, hd⟩ : ∃ dot, value (a.dot b) = dot := ⟨_, rfl⟩
  rw [hp] at hone
  rw [hd] at herror
  have hdotsize : |dot| ≤ 17 / 16 := by
    have hsize := (abs_dot_le a.real b.real).trans
      (mul_le_mul ha.length_le hb.length_le (length_nonneg _) (by linarith))
    have htriangle := abs_sub_abs_le_abs_sub dot (a.real ⬝ᵥ b.real)
    norm_num at hη herror
    nlinarith
  have hshare := abs_div_sub_self_le hdotsize hone (by norm_num at hη ⊢; linarith)
  have hquotient : |dot / product| ≤ 2 ^ (1 : ℤ) := by
    have hsub := abs_sub_abs_le_abs_sub (dot / product) dot
    norm_num at hη hshare ⊢
    linarith
  have hpos : product ≠ 0 := by
    have hone' := abs_le.mp hone
    norm_num at hη hone'
    exact (by linarith : 0 < product).ne'
  rcases rounds_div hdot.finite hproduct.finite (by rw [hp]; exact hpos) (by
    rw [hd, hp]
    exact hquotient.trans (zpow_le_zpow_right₀ one_le_two (by norm_num))) with ⟨hfinite, hrounds⟩
  rw [hd, hp] at hrounds
  refine ⟨hfinite, ?_⟩
  -- What is left are the errors of the division, of the divisor and of the dividend.
  have hround := hrounds.abs_sub_le (by norm_num) hquotient
  have htriangle := abs_sub_le (value (a.dot b / (a.magnitude * b.magnitude))) (dot / product)
    (a.real ⬝ᵥ b.real)
  have htriangle' := abs_sub_le (dot / product) dot (a.real ⬝ᵥ b.real)
  norm_num at hround hshare herror ⊢
  linarith

/-- To take away parts along a direction changes a product by what lies along it. -/
theorem abs_dot_sub_smul_le (x y l : Fin 3 → ℝ) (q r : ℝ) :
    |(x - q • l) ⬝ᵥ (y - r • l) - x ⬝ᵥ y| ≤
      |r| * |x ⬝ᵥ l| + |q| * |y ⬝ᵥ l| + |q| * |r| * |l ⬝ᵥ l| := by
  have hsplit : (x - q • l) ⬝ᵥ (y - r • l) - x ⬝ᵥ y =
      -(r * (x ⬝ᵥ l)) + -(q * (y ⬝ᵥ l)) + q * r * (l ⬝ᵥ l) := by
    rw [sub_dotProduct, dotProduct_sub, dotProduct_sub, dotProduct_smul, smul_dotProduct,
      smul_dotProduct, dotProduct_smul, dotProduct_comm l y]
    simp only [smul_eq_mul]
    ring
  rw [hsplit]
  refine (abs_add_le _ _).trans (add_le_add ((abs_add_le _ _).trans (add_le_add ?_ ?_)) ?_)
  · rw [abs_neg, abs_mul]
  · rw [abs_neg, abs_mul]
  · rw [abs_mul, abs_mul]

/-- What is taken away from a vector that is perpendicular to a direction already is an error. -/
theorem Normed.exists_reject_near (ha : a.Normed ε) (hε : ε ≤ 1 / 16)
    (hlook : look.Normed (2 ^ (-44 : ℤ))) (ha' : |a.real ⬝ᵥ look.real| ≤ 2 ^ (-39 : ℤ)) :
    ∃ q : ℝ, |q| ≤ 2 ^ (-37 : ℤ) ∧ length (a.real - q • look.real) ≤ 9 / 8 ∧
      length ((a.reject look).real - (a.real - q • look.real)) ≤ 2 ^ (-44 : ℤ) := by
  rcases reject_near (ha.abs_le_two (by linarith)) hlook with ⟨_, q, hq, hnear⟩
  have hq' : |q| ≤ 2 ^ (-37 : ℤ) := by
    norm_num at hq ha' ⊢
    linarith
  refine ⟨q, hq', ?_, hnear⟩
  have htriangle := length_sub_le a.real 0 (q • look.real)
  rw [sub_zero, zero_sub, length_neg, length_smul] at htriangle
  have hproduct := mul_le_mul hq' hlook.length_le (length_nonneg _) (by positivity)
  have hlength := ha.length_le
  norm_num at hproduct
  linarith

/-- Vectors that are perpendicular to a direction already lose nothing. -/
theorem Normed.reject_dot (ha : a.Normed ε) (hb : b.Normed ε) (hε : ε ≤ 1 / 16)
    (hlook : look.Normed (2 ^ (-44 : ℤ))) (ha' : |a.real ⬝ᵥ look.real| ≤ 2 ^ (-39 : ℤ))
    (hb' : |b.real ⬝ᵥ look.real| ≤ 2 ^ (-39 : ℤ)) :
    |(a.reject look).real ⬝ᵥ (b.reject look).real - a.real ⬝ᵥ b.real| ≤ 2 ^ (-42 : ℤ) := by
  rcases ha.exists_reject_near hε hlook ha' with ⟨q, hq, hsize, hnear⟩
  rcases hb.exists_reject_near hε hlook hb' with ⟨r, hr, hsize', hnear'⟩
  have herror := abs_dot_sub_dot_le (a.real - q • look.real) (b.real - r • look.real)
    (a.reject look).real (b.reject look).real
  have hcancel := abs_dot_sub_smul_le a.real b.real look.real q r
  have htriangle := abs_sub_le ((a.reject look).real ⬝ᵥ (b.reject look).real)
    ((a.real - q • look.real) ⬝ᵥ (b.real - r • look.real)) (a.real ⬝ᵥ b.real)
  have hsize'' := length_sub_le (b.reject look).real (b.real - r • look.real) 0
  rw [sub_zero, sub_zero] at hsize''
  -- The error of either vector meets the length of the other one.
  have hfirst := mul_le_mul hnear (hsize''.trans (add_le_add hnear' hsize')) (length_nonneg _)
    (by positivity)
  have hsecond := mul_le_mul hsize hnear' (length_nonneg _) (by norm_num)
  -- What has been taken away is small, and so is what it meets.
  have hcross := mul_le_mul hr ha' (abs_nonneg _) (by positivity)
  have hcross' := mul_le_mul hq hb' (abs_nonneg _) (by positivity)
  have hself : |look.real ⬝ᵥ look.real| ≤ 2 := by
    have h := abs_le.mp hlook.near_real
    rw [abs_le]
    norm_num at h
    constructor <;> linarith
  have hsquare := mul_le_mul (mul_le_mul hq hr (abs_nonneg _) (by positivity)) hself (abs_nonneg _)
    (by positivity)
  generalize (a.reject look).real ⬝ᵥ (b.reject look).real = product at *
  generalize (a.real - q • look.real) ⬝ᵥ (b.real - r • look.real) = flat at *
  norm_num at hfirst hsecond hcross hcross' hsquare ⊢
  linarith

theorem Normed.reject (ha : a.Normed ε) (hε : ε ≤ 1 / 16) (hlook : look.Normed (2 ^ (-44 : ℤ)))
    (ha' : |a.real ⬝ᵥ look.real| ≤ 2 ^ (-39 : ℤ)) : (a.reject look).Normed (ε + 2 ^ (-42 : ℤ)) := by
  have hdot := ha.reject_dot ha hε hlook ha' ha'
  rw [← square_eq, ← square_eq] at hdot
  have htriangle := abs_sub_le (a.reject look).square a.square 1
  exact ⟨(reject_near (ha.abs_le_two (by linarith)) hlook).1, by linarith [ha.near]⟩

/-- The angle between vectors of length one is the inverse of a cosine that is near their
    product. -/
theorem unsignedAngle_arccos [t : Trigonometry] (accurate : t.Accurate) (ha : a.Normed η)
    (hb : b.Normed η) (hη : η ≤ 2 ^ (-30 : ℤ)) {x : ℝ} (hx : |x| ≤ 1) :
    ∃ c : ℝ, |c| ≤ 1 ∧ |c - x| ≤ |a.real ⬝ᵥ b.real - x| + 3 * η + 2 ^ (-43 : ℤ) ∧
      |value (unsignedAngle a b) - Real.arccos c * value degreesPerRadian| ≤ 2 ^ (-38 : ℤ) := by
  rcases ha.near_cosine hb hη with ⟨hfinite, hnear⟩
  rcases isFinite_clampCosine (isNaN_of_isFinite hfinite) with ⟨hfinite', hrange⟩
  have hclamp := clampCosine_near hfinite hx
  have htriangle := abs_sub_le (value (a.dot b / (a.magnitude * b.magnitude))) (a.real ⬝ᵥ b.real) x
  exact ⟨_, hrange, by linarith, (near_degrees accurate hfinite' hrange).2.2⟩

/-- Seen from the side of their normal, a turn from one vector to another is positive. -/
theorem not_cross_dot_lt_zero (ha : a.Normed ε) (hb : b.Normed ε) (hε : ε ≤ 1 / 4)
    (hlook : look.Normed (2 ^ (-44 : ℤ))) (hseen : 1 / 32 ≤ (a.real ⨯₃ b.real) ⬝ᵥ look.real) :
    ¬ (a.cross b).dot look < 0.0 := by
  have hinside := ha.abs_le_two (by linarith)
  have hinside' := hb.abs_le_two (by linarith)
  have hdot :=
    near_dot (inside_cross hinside hinside') (hlook.abs_le_two (by norm_num)) (by norm_num)
    (by norm_num) (by norm_num) (by norm_num)
  have hcross := mul_le_mul (length_cross_sub_le hinside hinside') hlook.length_le (length_nonneg _)
    (by positivity)
  have hsub := (abs_dot_le _ _).trans hcross
  have herror := hdot.error
  rw [lt_iff_value_lt hdot.finite rfl, value_zero, not_lt]
  rw [sub_dotProduct] at hsub
  have herror' := abs_le.mp herror
  have hsub' := abs_le.mp hsub
  norm_num at herror' hsub'
  linarith

/-- The turn between two vectors, seen along their normal. It is the angle of a cosine that is near
    to their product, and that angle is positive, since the normal looks in the direction of the
    turn. The vectors have to be apart, or it could not be told on which side of their line they
    lie. -/
theorem signedAngle_arccos [t : Trigonometry] (accurate : t.Accurate) (ha : a.Normed ε)
    (hb : b.Normed ε) (hε : ε ≤ 2 ^ (-31 : ℤ)) (hlook : look.Normed (2 ^ (-44 : ℤ)))
    (ha' : |a.real ⬝ᵥ look.real| ≤ 2 ^ (-39 : ℤ)) (hb' : |b.real ⬝ᵥ look.real| ≤ 2 ^ (-39 : ℤ))
    (hseen : 1 / 32 ≤ (a.real ⨯₃ b.real) ⬝ᵥ look.real) (hx : |a.real ⬝ᵥ b.real| ≤ 1) :
    ∃ c : ℝ, |c| ≤ 1 ∧ |c - a.real ⬝ᵥ b.real| ≤ 3 * ε + 5 * 2 ^ (-42 : ℤ) ∧
      |value (signedAngle a b look) - Real.arccos c * value degreesPerRadian| ≤ 2 ^ (-38 : ℤ) := by
  have hε' : ε ≤ 1 / 16 := hε.trans (by norm_num)
  -- Both are almost across the look, so that the parts across it are almost the vectors.
  have hflata := ha.reject hε' hlook ha'
  have hflatb := hb.reject hε' hlook hb'
  have hη : ε + 2 ^ (-42 : ℤ) ≤ 2 ^ (-30 : ℤ) := by
    norm_num at hε ⊢
    linarith
  have hpos {v : Vec3} (hv : v.Normed (ε + 2 ^ (-42 : ℤ))) : 0.0 < v.magnitude := by
    have hmagnitude := hv.magnitude_mem (hη.trans (by norm_num))
    rw [lt_iff_value_lt rfl hmagnitude.1, value_zero]
    linarith
  rcases unsignedAngle_arccos accurate hflata hflatb hη hx with ⟨c, hrange, hcosine, hangle⟩
  refine ⟨c, hrange, ?_, ?_⟩
  · have hdot := ha.reject_dot hb hε' hlook ha' hb'
    norm_num at hcosine hdot ⊢
    linarith
  · -- They are seen from the side where the angle keeps its sign.
    have hsigned : signedAngle a b look = unsignedAngle (a.reject look) (b.reject look) := by
      rw [signedAngle]
      simp only [hpos hflata, hpos hflatb, not_cross_dot_lt_zero ha hb (by linarith) hlook hseen,
        decide_true, Bool.and_self, if_true, if_false]
    rw [hsigned]
    exact hangle

theorem abs_radiansPerDegree_le : |value radiansPerDegree| ≤ 1 / 57 := by
  rw [value_radiansPerDegree, abs_of_nonneg (by positivity)]
  norm_num

/-- The two factors are inverse to each other, up to rounding. -/
theorem degrees_mul_radians_near :
    |value degreesPerRadian * value radiansPerDegree - 1| ≤ 2 ^ (-55 : ℤ) := by
  rw [value_degreesPerRadian, value_radiansPerDegree]
  norm_num

/-- An angle that has been found in degrees is almost the same angle again in radians. -/
theorem neg_radians_near {degrees : Float} {angle : ℝ} (hdegrees : degrees.isFinite = true)
    (hdegrees' : |value degrees| ≤ 2 ^ (8 : ℤ)) (hangle : |angle| ≤ 4)
    (h : |value degrees - angle * value degreesPerRadian| ≤ 2 ^ (-38 : ℤ)) :
    |value (-degrees * radiansPerDegree) + angle| ≤ 2 ^ (-43 : ℤ) := by
  have hsmall : Near radiansPerDegree (value radiansPerDegree) (-5) 0 :=
    Near.self rfl (abs_radiansPerDegree_le.trans (by norm_num))
  have hneg : |value (-degrees)| ≤ 2 ^ (8 : ℤ) := by rwa [value_neg, abs_neg]
  have herror := ((Near.self (by rw [isFinite_neg, hdegrees]) hneg).mul hsmall (by norm_num)
    (by norm_num) (by norm_num) (by norm_num)).error
  have hshare := mul_le_mul h abs_radiansPerDegree_le (abs_nonneg _) (by positivity)
  have hshare' := mul_le_mul hangle degrees_mul_radians_near (abs_nonneg _) (by norm_num)
  rw [← abs_mul] at hshare hshare'
  -- The rounding, what the degrees are off, and that the two factors are not quite inverse.
  have hsplit : value (-degrees * radiansPerDegree) + angle =
      value (-degrees * radiansPerDegree) - value (-degrees) * value radiansPerDegree -
        (value degrees - angle * value degreesPerRadian) * value radiansPerDegree -
          angle * (value degreesPerRadian * value radiansPerDegree - 1) := by
    rw [value_neg]
    ring
  rw [hsplit]
  refine (abs_sub _ _).trans ((add_le_add_left (abs_sub _ _) _).trans ?_)
  norm_num at herror hshare hshare' ⊢
  linarith

/-- Sine and cosine of an angle that has been found in degrees, for the turn back. Going to degrees
    and from degrees to radians again loses almost nothing, since the two factors are near to
    inverse. -/
theorem near_turn_back [t : Trigonometry] (accurate : t.Accurate) {degrees : Float} {c : ℝ}
    (hdegrees : degrees.isFinite = true) (hdegrees' : |value degrees| ≤ 2 ^ (8 : ℤ)) (hc : |c| ≤ 1)
    (h : |value degrees - Real.arccos c * value degreesPerRadian| ≤ 2 ^ (-38 : ℤ)) :
    |value (t.cos (-degrees * radiansPerDegree)) - c| ≤ 2 ^ (-42 : ℤ) ∧
      |value (t.sin (-degrees * radiansPerDegree)) + √(1 - c ^ 2)| ≤ 2 ^ (-42 : ℤ) := by
  have hfinite := @isFinite_radians (-degrees) (by rw [isFinite_neg, hdegrees])
    (by rwa [value_neg, abs_neg])
  rcases accurate.cos _ hfinite with ⟨_, hcos⟩
  rcases accurate.sin _ hfinite with ⟨_, hsin⟩
  have hradians := neg_radians_near hdegrees hdegrees' (by
    rw [abs_of_nonneg (Real.arccos_nonneg c)]
    exact (Real.arccos_le_pi c).trans Real.pi_le_four) h
  -- Neither a sine nor a cosine changes faster than its angle.
  have hcos' := Real.abs_cos_sub_cos_le (value (-degrees * radiansPerDegree)) (-Real.arccos c)
  have hsin' := Real.abs_sin_sub_sin_le (value (-degrees * radiansPerDegree)) (-Real.arccos c)
  rw [Real.cos_neg, Real.cos_arccos (abs_le.mp hc).1 (abs_le.mp hc).2, sub_neg_eq_add] at hcos'
  rw [Real.sin_neg, Real.sin_arccos, sub_neg_eq_add, sub_neg_eq_add] at hsin'
  constructor
  · have htriangle := abs_sub_le (value (t.cos (-degrees * radiansPerDegree)))
      (Real.cos (value (-degrees * radiansPerDegree))) c
    norm_num at hcos hradians ⊢
    linarith
  · have htriangle := abs_sub_le (value (t.sin (-degrees * radiansPerDegree)))
      (Real.sin (value (-degrees * radiansPerDegree))) (-√(1 - c ^ 2))
    rw [sub_neg_eq_add, sub_neg_eq_add] at htriangle
    norm_num at hsin hradians ⊢
    linarith

end Vec3

end SolidModel
