import SolidModel.Proofs.Vec3.Cosine

/-!
# Carrying Directions

That the turn from one direction to another carries the one onto the other.

The turn is about the normal of the two directions, and by the angle between them. If they are
apart, then the normal is known, and so are cosine and sine, and the turn does what it is for up to
an error of a few hundred units in the last place. It does it by the shortest way. So it also is
known what becomes of any other direction, and one that is perpendicular to both stays where it is.

How far apart the directions have to be is a matter of what error is allowed for. A seventeenth,
taken as the sine of their angle, leaves two digits to spare.

## Main definitions

* `Vec3.Carries`: A turn is the shortest one from a direction to another, up to errors.

## Theorems

* `Vec3.alignmentRotation_carries`: The turn that is found is such a turn.
* `Vec3.Carries.goal`: It carries the one direction onto the other.
* `Vec3.Carries.carried_near`: It carries other directions the same way.
* `Vec3.Carries.across`: It leaves those that are perpendicular to both.
-/

namespace SolidModel

open scoped Matrix

namespace Vec3

variable {ε η : ℝ}

/-- A turn by some degrees about a pole carries one direction onto another, and it does so by the
    shortest way. -/
structure Carries [t : Trigonometry] (degrees : Float) (p f g : Vec3) (ε : ℝ) : Prop where
  /-- The degrees have a value. -/
  finite : degrees.isFinite = true
  /-- The turn is no full circle. -/
  size : |value degrees| ≤ 2 ^ (8 : ℤ)
  /-- The pole has length one, up to an error. -/
  pole : p.Normed (2 ^ (-44 : ℤ))
  /-- The two directions are far enough from one line for their product to be told. -/
  apart : 1 / 17 ≤ length (g.real ⨯₃ f.real)
  /-- The pole points along that product, taken from the second to the first. -/
  along : length (length (g.real ⨯₃ f.real) • p.real - g.real ⨯₃ f.real) ≤ 2 ^ (-42 : ℤ)
  /-- The computed cosine of the turn is that of the angle between the directions. -/
  cosine : |value (t.cos (degrees * radiansPerDegree)) - f.real ⬝ᵥ g.real| ≤
    3 * ε + 6 * 2 ^ (-42 : ℤ)
  /-- The computed sine, along the pole, is the product taken from the first to the second. -/
  sine : length (value (t.sin (degrees * radiansPerDegree)) • p.real - f.real ⨯₃ g.real) ≤
    140 * ε + 2 ^ (-34 : ℤ)

/-- What points along a normal is perpendicular to what the normal is perpendicular to. -/
theorem abs_dot_normal_le {x n p : Fin 3 → ℝ} {δ : ℝ} (hlength : length x ≤ 17 / 16)
    (hperp : x ⬝ᵥ n = 0) (hapart : 1 / 17 ≤ length n) (h : length (length n • p - n) ≤ δ) :
    |x ⬝ᵥ p| ≤ 19 * δ := by
  have hsplit : length n * (x ⬝ᵥ p) = x ⬝ᵥ (length n • p - n) := by
    rw [dotProduct_sub, dotProduct_smul, hperp, sub_zero, smul_eq_mul]
  have hproduct := (abs_dot_le x (length n • p - n)).trans
    (mul_le_mul hlength h (length_nonneg _) (by norm_num))
  rw [← hsplit, abs_mul, abs_of_nonneg (length_nonneg n)] at hproduct
  have hshare := mul_le_mul_of_nonneg_right hapart (abs_nonneg (x ⬝ᵥ p))
  have hδ := (length_nonneg _).trans h
  linarith

theorem length_cross_comm (x y : Fin 3 → ℝ) : length (x ⨯₃ y) = length (y ⨯₃ x) := by
  rw [← cross_anticomm, length_neg]

/-- The length of a product is the sine. -/
theorem length_cross_sq (x y : Fin 3 → ℝ) :
    length (x ⨯₃ y) ^ 2 = (x ⬝ᵥ x) * (y ⬝ᵥ y) - (x ⬝ᵥ y) ^ 2 := by
  rw [length_sq, cross_dot_cross, dotProduct_comm y x, sq]

/-- The root of a number that is near the square of another one. -/
theorem abs_sqrt_sub_le {s r δ : ℝ} (hs : 0 ≤ s) (hr : 1 / 17 ≤ r) (h : |s - r ^ 2| ≤ δ) :
    |√s - r| ≤ 17 * δ := by
  have hroot := Real.sqrt_nonneg s
  have hsplit : s - r ^ 2 = (√s - r) * (√s + r) := by
    rw [mul_comm, ← sq_sub_sq, Real.sq_sqrt hs]
  rw [hsplit, abs_mul, abs_of_nonneg (by linarith : 0 ≤ √s + r)] at h
  have hshare := mul_le_mul_of_nonneg_left (by linarith : 1 / 17 ≤ √s + r) (abs_nonneg (√s - r))
  linarith

theorem abs_one_sub_sq_sub_le {c x δ : ℝ} (hc : |c| ≤ 1) (hx : |x| ≤ 1) (h : |c - x| ≤ δ) :
    |1 - c ^ 2 - (1 - x ^ 2)| ≤ 2 * δ := by
  have hsplit : 1 - c ^ 2 - (1 - x ^ 2) = -((c - x) * (c + x)) := by ring
  have hsum := (abs_add_le c x).trans (add_le_add hc hx)
  have hproduct := mul_le_mul h hsum (abs_nonneg _) ((abs_nonneg _).trans h)
  rw [hsplit, abs_neg, abs_mul]
  linarith

variable {f g : Vec3}

/-- Directions that are apart have a product below one, and the rest is the sine. -/
theorem Normed.abs_dot_le_one (hf : f.Normed ε) (hg : g.Normed ε) (hε : ε ≤ 2 ^ (-31 : ℤ))
    (hapart : 1 / 17 ≤ length (g.real ⨯₃ f.real)) :
    |f.real ⬝ᵥ g.real| ≤ 1 ∧
      |1 - (f.real ⬝ᵥ g.real) ^ 2 - length (g.real ⨯₃ f.real) ^ 2| ≤ 17 / 8 * ε := by
  have hsquare := mul_le_mul hapart hapart (by norm_num) (length_nonneg _)
  have hf' := hf.near_real
  have hg' := hg.near_real
  have hcross := length_cross_sq f.real g.real
  have hproduct := mul_le_mul hf' hg' (abs_nonneg _) ((abs_nonneg _).trans hf')
  rw [length_cross_comm]
  rw [length_cross_comm] at hsquare
  -- The two products make up for each other, as far as the lengths are one.
  have hsplit : 1 - (f.real ⬝ᵥ g.real) ^ 2 - length (f.real ⨯₃ g.real) ^ 2 =
      -((f.real ⬝ᵥ f.real - 1) * (g.real ⬝ᵥ g.real - 1) + (f.real ⬝ᵥ f.real - 1) +
        (g.real ⬝ᵥ g.real - 1)) := by
    rw [hcross]
    ring
  have hbound : |1 - (f.real ⬝ᵥ g.real) ^ 2 - length (f.real ⨯₃ g.real) ^ 2| ≤ 17 / 8 * ε := by
    have hsmall : ε * ε ≤ 1 / 8 * ε :=
      mul_le_mul_of_nonneg_right (hε.trans (by norm_num)) ((abs_nonneg _).trans hf')
    rw [hsplit, abs_neg]
    refine (abs_add_le _ _).trans ((add_le_add_left (abs_add_le _ _) _).trans ?_)
    rw [abs_mul]
    linarith
  refine ⟨?_, hbound⟩
  -- The one product is long enough to keep the other from exceeding one.
  rw [abs_le_one_iff_mul_self_le_one]
  have hbound' := abs_le.mp hbound
  norm_num at hε
  nlinarith

/-- A pole that has been divided by its length already is not changed by being divided again. -/
theorem normalized_normed {axis : Vec3} (h : axis.Normed (2 ^ (-44 : ℤ))) :
    ∃ p, axis.normalized = .ok p ∧ p.Normed (2 ^ (-44 : ℤ)) ∧
      length (p.real - axis.real) ≤ 2 ^ (-43 : ℤ) := by
  rcases h.square_mem with ⟨hsmall, hlarge⟩
  rcases normalized_near h.finite (by norm_num at hsmall ⊢; linarith)
    (by norm_num at hlarge ⊢; linarith) with ⟨p, hp, hnormed, hnear⟩
  refine ⟨p, hp, hnormed, ?_⟩
  have hsplit : p.real - axis.real =
      (1 - length axis.real) • p.real + (length axis.real • p.real - axis.real) := by
    module
  have htriangle := length_add_le ((1 - length axis.real) • p.real)
    (length axis.real • p.real - axis.real)
  have hone := h.abs_length_sub_one_le
  have hlength := h.length_le
  rw [length_smul, abs_sub_comm] at htriangle
  have hproduct := mul_le_mul hone hnormed.length_le (length_nonneg _) (by positivity)
  rw [hsplit]
  norm_num at hnear hlength hproduct ⊢
  linarith

/-- A pole that points along a normal has a product with it. -/
theorem le_dot_along {n p : Fin 3 → ℝ} (hself : |p ⬝ᵥ p - 1| ≤ 1 / 16)
    (hlength : length p ≤ 17 / 16)
    (hapart : 1 / 17 ≤ length n) (h : length (length n • p - n) ≤ 1 / 64) : 1 / 32 ≤ n ⬝ᵥ p := by
  have hsplit : n ⬝ᵥ p = length n * (p ⬝ᵥ p) - (length n • p - n) ⬝ᵥ p := by
    rw [sub_dotProduct, smul_dotProduct, smul_eq_mul, sub_sub_cancel]
  have herror := abs_le.mp ((abs_dot_le _ p).trans
    (mul_le_mul h hlength (length_nonneg _) (by norm_num)))
  have hshare := mul_le_mul hapart (by linarith [(abs_le.mp hself).1] : 15 / 16 ≤ p ⬝ᵥ p)
    (by norm_num) (length_nonneg n)
  rw [hsplit]
  linarith

/-- What points along a normal still does so if it is moved a little. -/
theorem length_along_le {n p q : Fin 3 → ℝ} (hlength : length n ≤ 5 / 4)
    (hnear : length (q - p) ≤ 2 ^ (-43 : ℤ)) (h : length (length n • p - n) ≤ 2 ^ (-44 : ℤ)) :
    length (length n • q - n) ≤ 2 ^ (-42 : ℤ) := by
  have hsplit : length n • q - n = length n • (q - p) + (length n • p - n) := by module
  have htriangle := length_add_le (length n • (q - p)) (length n • p - n)
  have hproduct := mul_le_mul hlength hnear (length_nonneg _) (by norm_num)
  rw [← hsplit, length_smul, abs_of_nonneg (length_nonneg n)] at htriangle
  norm_num at hproduct h ⊢
  linarith

/-- A sine that is the length of a normal, up to its sign, makes the normal from a pole along it. -/
theorem length_smul_sub_cross_le (s : ℝ) (p f g : Fin 3 → ℝ) :
    length (s • p - f ⨯₃ g) ≤ |s + length (g ⨯₃ f)| * length p +
      length (length (g ⨯₃ f) • p - g ⨯₃ f) := by
  have hsplit : s • p - f ⨯₃ g =
      (s + length (g ⨯₃ f)) • p - (length (g ⨯₃ f) • p - g ⨯₃ f) := by
    rw [← cross_anticomm]
    module
  have htriangle := length_sub_le ((s + length (g ⨯₃ f)) • p) 0 (length (g ⨯₃ f) • p - g ⨯₃ f)
  rwa [sub_zero, zero_sub, length_neg, length_smul, ← hsplit] at htriangle

theorem Normed.length_product_le (hf : f.Normed ε) (hg : g.Normed ε) (hε : ε ≤ 1 / 16) :
    length (g.real ⨯₃ f.real) ≤ 5 / 4 := by
  have hproduct := mul_le_mul (hg.length_le.trans (add_le_add_right hε 1))
    (hf.length_le.trans (add_le_add_right hε 1)) (length_nonneg _) (by norm_num)
  have hbound := length_cross_le g.real f.real
  norm_num at hproduct
  linarith

/-- The turn that carries one direction onto another is found, if they are apart. The angle is
    measured from the second to the first, which is why it is taken back, and the axis is divided by
    its length once more before it is used. -/
theorem alignmentRotation_carries [t : Trigonometry] (accurate : t.Accurate) (hf : f.Normed ε)
    (hg : g.Normed ε) (hε : ε ≤ 2 ^ (-31 : ℤ)) (hapart : 1 / 17 ≤ length (g.real ⨯₃ f.real)) :
    ∃ angle axis p, (alignmentRotation f g).result = .ok (angle, axis) ∧ axis.normalized = .ok p ∧
      Carries (-angle) p f g ε := by
  have hε' : ε ≤ 1 / 16 := hε.trans (by norm_num)
  have hε'' : ε ≤ 1 / 4 := hε.trans (by norm_num)
  have hpos := (abs_nonneg _).trans hf.near
  -- The axis is the normal, so that both directions are perpendicular to it.
  rcases normal_near hg hf hε'' (by norm_num at hapart ⊢; linarith) with
    ⟨axis, haxis, hnormed, halong⟩
  have hf' := abs_dot_normal_le (hf.length_le.trans (by linarith)) (dot_cross_self g.real f.real)
    hapart halong
  have hg' := abs_dot_normal_le (hg.length_le.trans (by linarith)) (dot_self_cross g.real f.real)
    hapart halong
  have hseen := le_dot_along (hnormed.near_real.trans (by norm_num))
    (hnormed.length_le.trans (by norm_num)) hapart (halong.trans (by norm_num))
  -- The angle is the inverse of a cosine that is almost the product of the directions.
  rcases hf.abs_dot_le_one hg hε hapart with ⟨hdot, hsquare⟩
  rcases signedAngle_arccos accurate hg hf hε hnormed (hg'.trans (by norm_num))
    (hf'.trans (by norm_num)) hseen (by rwa [dotProduct_comm]) with ⟨c, hrange, hcosine, hangle⟩
  rcases signedAngle_near accurate hg hf hε'' hnormed with ⟨hfinite, hsize⟩
  rcases near_turn_back accurate hfinite hsize hrange hangle with ⟨hcos, hsin⟩
  -- To take the turn, the axis is divided by its length once more.
  rcases normalized_normed hnormed with ⟨p, hp, hpole, hsame⟩
  have halong' := length_along_le (hf.length_product_le hg hε') hsame halong
  rw [dotProduct_comm] at hcosine
  refine ⟨signedAngle g f axis, axis, p, ?_, hp, ?_, ?_, hpole, hapart, halong', ?_, ?_⟩
  · refine Logged.bind_eq_ok_iff.mpr ⟨axis, by rw [alignmentAxis, haxis]; rfl, ?_⟩
    refine Logged.bind_eq_ok_iff.mpr ⟨signedAngle g f axis, ?_, rfl⟩
    rw [Logged.ofExcept_result, angleBetween, hg.isNull_eq_false hε'', hf.isNull_eq_false hε'']
    rfl
  · rw [isFinite_neg, hfinite]
  · rwa [value_neg, abs_neg]
  · have htriangle := abs_sub_le (value (t.cos (-signedAngle g f axis * radiansPerDegree))) c
      (f.real ⬝ᵥ g.real)
    linarith
  · -- The sine is the root of what the square of the cosine leaves, and so is the length of the
    -- normal.
    have hroot := abs_sqrt_sub_le (sub_nonneg.mpr ((sq_le_one_iff_abs_le_one c).mpr hrange)) hapart
      ((abs_sub_le _ (1 - (f.real ⬝ᵥ g.real) ^ 2) _).trans (add_le_add
        (abs_one_sub_sq_sub_le hrange hdot hcosine) hsquare))
    generalize value (t.sin (-signedAngle g f axis * radiansPerDegree)) = s at hsin ⊢
    have hsum : |s + length (g.real ⨯₃ f.real)| ≤ 139 * ε + 173 * 2 ^ (-42 : ℤ) := by
      have htriangle := abs_sub (s + √(1 - c ^ 2)) (√(1 - c ^ 2) - length (g.real ⨯₃ f.real))
      rw [show s + √(1 - c ^ 2) - (√(1 - c ^ 2) - length (g.real ⨯₃ f.real)) =
        s + length (g.real ⨯₃ f.real) by ring] at htriangle
      norm_num at hsin hroot ⊢
      linarith
    have hbound := length_smul_sub_cross_le s p.real f.real g.real
    have hproduct := mul_le_mul hsum hpole.length_le (length_nonneg _) ((abs_nonneg _).trans hsum)
    norm_num at hproduct halong' ⊢
    linarith

/-- What points along the normal of two directions has a short product with what is perpendicular to
    both. -/
theorem abs_normal_cross_le {f g p x : Fin 3 → ℝ} (hf : length f ≤ 1 + 2 ^ (-31 : ℤ))
    (hg : length g ≤ 1 + 2 ^ (-31 : ℤ)) (hx : length x ≤ 17 / 16)
    (hapart : 1 / 17 ≤ length (g ⨯₃ f))
    (h : length (length (g ⨯₃ f) • p - g ⨯₃ f) ≤ 2 ^ (-42 : ℤ)) :
    length (p ⨯₃ x) ≤ 17 * ((1 + 2 ^ (-31 : ℤ)) * (|f ⬝ᵥ x| + |g ⬝ᵥ x|)) + 19 * 2 ^ (-42 : ℤ) := by
  obtain ⟨d, hd⟩ : ∃ d, length (g ⨯₃ f) • p - g ⨯₃ f = d := ⟨_, rfl⟩
  have hsplit : length (g ⨯₃ f) • (p ⨯₃ x) = d ⨯₃ x + ((g ⬝ᵥ x) • f - (f ⬝ᵥ x) • g) := by
    rw [← hd, LinearMap.map_sub₂, LinearMap.map_smul₂, cross_cross_eq_smul_sub_smul]
    module
  rw [hd] at h
  have hproduct := (length_cross_le d x).trans (mul_le_mul h hx (length_nonneg _) (by positivity))
  have hsum := length_sub_le ((g ⬝ᵥ x) • f) 0 ((f ⬝ᵥ x) • g)
  have hfirst := mul_le_mul_of_nonneg_left hf (abs_nonneg (g ⬝ᵥ x))
  have hsecond := mul_le_mul_of_nonneg_left hg (abs_nonneg (f ⬝ᵥ x))
  have htriangle := length_add_le (d ⨯₃ x) ((g ⬝ᵥ x) • f - (f ⬝ᵥ x) • g)
  rw [← hsplit, length_smul, abs_of_nonneg (length_nonneg _)] at htriangle
  rw [sub_zero, zero_sub, length_neg, length_smul, length_smul] at hsum
  have hshare := mul_le_mul_of_nonneg_right hapart (length_nonneg (p ⨯₃ x))
  norm_num at hproduct hfirst hsecond ⊢
  linarith

/-- Directions that are apart are not opposite. -/
theorem Normed.le_one_add_dot (hf : f.Normed ε) (hg : g.Normed ε) (hε : ε ≤ 2 ^ (-31 : ℤ))
    (hapart : 1 / 17 ≤ length (g.real ⨯₃ f.real)) : 1 / 600 ≤ 1 + f.real ⬝ᵥ g.real := by
  rcases hf.abs_dot_le_one hg hε hapart with ⟨hdot, hsquare⟩
  have hsine := mul_le_mul hapart hapart (by norm_num) (length_nonneg _)
  have hdot' := abs_le.mp hdot
  have hsquare' := abs_le.mp hsquare
  norm_num at hε
  nlinarith

/-- What one minus the cosine comes to, in terms of the sine. -/
theorem abs_one_sub_mul_sub_sq_le {k d r κ σ : ℝ} (hcosine : |k - d| ≤ κ)
    (hsine : |1 - d ^ 2 - r ^ 2| ≤ σ) (hd : 0 < 1 + d) :
    |(1 - k) * (1 + d) - r ^ 2| ≤ κ * (1 + d) + σ := by
  have hsplit : (1 - k) * (1 + d) - r ^ 2 = -((k - d) * (1 + d)) + (1 - d ^ 2 - r ^ 2) := by ring
  rw [hsplit]
  refine (abs_add_le _ _).trans (add_le_add ?_ hsine)
  rw [abs_neg, abs_mul, abs_of_pos hd]
  exact mul_le_mul_of_nonneg_right hcosine hd.le

namespace Carries

variable [t : Trigonometry] {degrees : Float} {p x w : Vec3}

/-- The sine and the cosine that are made use of. -/
theorem factors_le (accurate : t.Accurate) (h : Carries degrees p f g ε) :
    |value (t.cos (degrees * radiansPerDegree))| ≤ 17 / 16 ∧
      |value (t.sin (degrees * radiansPerDegree))| ≤ 17 / 16 := by
  have hfinite := isFinite_radians h.finite h.size
  have hbound {r q : ℝ} (hr : |r - q| ≤ 2 ^ (-45 : ℤ)) (hq : |q| ≤ 1) : |r| ≤ 17 / 16 := by
    have htriangle := abs_sub_abs_le_abs_sub r q
    norm_num at hr
    linarith
  exact ⟨hbound (accurate.cos _ hfinite).2 (Real.abs_cos_le_one _),
    hbound (accurate.sin _ hfinite).2 (Real.abs_sin_le_one _)⟩

theorem rotate_near (accurate : t.Accurate) (h : Carries degrees p f g ε) (hx : x.Normed η)
    (hη : η ≤ 1) (hw : x.rotate degrees p = .ok w) :
    length (w.real - turned (value (t.cos (degrees * radiansPerDegree)))
      (value (t.sin (degrees * radiansPerDegree))) p.real x.real) ≤ 2 ^ (-39 : ℤ) := by
  rcases Vec3.rotate_near accurate (hx.abs_le_two hη) (by norm_num) (by norm_num) h.pole h.finite
    h.size with ⟨_, hw', _, hnear⟩
  cases hw.symm.trans hw'
  exact hnear.trans (by norm_num)

/-- The one direction is carried onto the other. -/
theorem goal (accurate : t.Accurate) (h : Carries degrees p f g ε) (hf : f.Normed ε)
    (hg : g.Normed ε) (hε : ε ≤ 2 ^ (-31 : ℤ)) (hw : f.rotate degrees p = .ok w) :
    length (w.real - g.real) ≤ 150 * ε + 6 * 2 ^ (-36 : ℤ) := by
  have hrotate := h.rotate_near accurate hf (hε.trans (by norm_num)) hw
  rcases h.factors_le accurate with ⟨hk, _⟩
  have hcosine := h.cosine
  have hsine := h.sine
  generalize value (t.cos (degrees * radiansPerDegree)) = k at *
  generalize value (t.sin (degrees * radiansPerDegree)) = s at *
  have hexact := length_turned_sub_goal_le k s p.real f.real g.real
  have htriangle := length_sub_le w.real (turned k s p.real f.real) g.real
  have hlength : length f.real ≤ 1 + 2 ^ (-31 : ℤ) := hf.length_le.trans (add_le_add_right hε 1)
  have hlength' : length g.real ≤ 1 + 2 ^ (-31 : ℤ) := hg.length_le.trans (add_le_add_right hε 1)
  have hpos := (abs_nonneg _).trans hf.near
  -- The start is across the pole, and nothing of it stays behind.
  have hacross := abs_dot_normal_le (hlength.trans (by norm_num)) (dot_cross_self g.real f.real)
    h.apart h.along
  rw [dotProduct_comm] at hacross
  -- What the cosine is off, the length of the start, the sine, and the direction of the pole.
  have hfirst := mul_le_mul hcosine hlength (length_nonneg _) (by positivity)
  have hsecond := mul_le_mul hf.near_real hlength' (length_nonneg _) hpos
  have hthird := mul_le_mul hsine hlength (length_nonneg _) (by positivity)
  have hone : |1 - k| ≤ 33 / 16 := by
    have h := abs_sub 1 k
    rw [abs_one] at h
    linarith
  have hfourth :=
    mul_le_mul (mul_le_mul hacross hone (abs_nonneg _) (by positivity)) h.pole.length_le
    (length_nonneg _) (by positivity)
  norm_num at hrotate hfirst hsecond hthird hfourth ⊢
  linarith

/-- A direction that is perpendicular to both, or nearly so, is left where it is. The second turn of
    an alignment leaves the axis in its place because of this. -/
theorem across (accurate : t.Accurate) (h : Carries degrees p f g ε) (hf : f.Normed ε)
    (hg : g.Normed ε) (hε : ε ≤ 2 ^ (-31 : ℤ)) (hx : x.Normed η) (hη : η ≤ 1 / 16)
    (hw : x.rotate degrees p = .ok w) :
    length (w.real - x.real) ≤ 54 * (|f.real ⬝ᵥ x.real| + |g.real ⬝ᵥ x.real|) + 2 ^ (-35 : ℤ) := by
  have hrotate := h.rotate_near accurate hx (hη.trans (by norm_num)) hw
  rcases h.factors_le accurate with ⟨hk, hs⟩
  generalize value (t.cos (degrees * radiansPerDegree)) = k at *
  generalize value (t.sin (degrees * radiansPerDegree)) = s at *
  have hexact := length_turned_sub_self_le k s p.real x.real
  have htriangle := length_sub_le w.real (turned k s p.real x.real) x.real
  have hlength : length f.real ≤ 1 + 2 ^ (-31 : ℤ) := hf.length_le.trans (add_le_add_right hε 1)
  have hlength' : length g.real ≤ 1 + 2 ^ (-31 : ℤ) := hg.length_le.trans (add_le_add_right hε 1)
  have hlength'' : length x.real ≤ 17 / 16 := hx.length_le.trans (by linarith)
  -- What is across both directions lies along the pole, and the turn leaves it where it is.
  have hcross := abs_normal_cross_le hlength hlength' hlength'' h.apart h.along
  have hone : |1 - k| ≤ 33 / 16 := by
    have h := abs_sub 1 k
    rw [abs_one] at h
    linarith
  have hself := mul_le_mul h.pole.near_real hlength'' (length_nonneg _) (by positivity)
  have halong := mul_le_mul_of_nonneg_right h.pole.length_le (length_nonneg (p.real ⨯₃ x.real))
  have hfirst := mul_le_mul_of_nonneg_right hs (length_nonneg (p.real ⨯₃ x.real))
  have hsecond := mul_le_mul hone (add_le_add halong hself)
    (add_nonneg (mul_nonneg (length_nonneg _) (length_nonneg _))
      (mul_nonneg (abs_nonneg _) (length_nonneg _))) (by norm_num)
  have hpos := add_nonneg (abs_nonneg (f.real ⬝ᵥ x.real)) (abs_nonneg (g.real ⬝ᵥ x.real))
  have hpos' := length_nonneg (p.real ⨯₃ x.real)
  norm_num at hrotate hcross hfirst hsecond ⊢
  linarith

/-- Other directions are carried along the same way. `carried` is the shortest turn from the one
    direction to the other, written without an angle. -/
theorem carried_near (accurate : t.Accurate) (h : Carries degrees p f g ε) (hf : f.Normed ε)
    (hg : g.Normed ε) (hε : ε ≤ 2 ^ (-31 : ℤ)) (hx : x.Normed η) (hη : η ≤ 1 / 16)
    (hw : x.rotate degrees p = .ok w) :
    length (w.real - carried f.real g.real x.real) ≤ 2000 * ε + 2 ^ (-30 : ℤ) := by
  have hrotate := h.rotate_near accurate hx (hη.trans (by norm_num)) hw
  have hopposite := hf.le_one_add_dot hg hε h.apart
  have hpositive : 0 < 1 + f.real ⬝ᵥ g.real := by linarith
  have hsame := abs_one_sub_mul_sub_sq_le h.cosine (hf.abs_dot_le_one hg hε h.apart).2 hpositive
  have hcosine := h.cosine
  have hsine := h.sine
  have hpos := (abs_nonneg _).trans hf.near
  generalize value (t.cos (degrees * radiansPerDegree)) = k at *
  generalize value (t.sin (degrees * radiansPerDegree)) = s at *
  have hexact := length_turned_sub_carried_le (k := k) (s := s) (p := p.real) (x := x.real)
    (r := length (g.real ⨯₃ f.real)) hpositive
  have htriangle := length_sub_le w.real (turned k s p.real x.real) (carried f.real g.real x.real)
  have hlength : length x.real ≤ 17 / 16 := hx.length_le.trans (by linarith)
  have hpole : length p.real ≤ 17 / 16 := h.pole.length_le.trans (by norm_num)
  have hcross := hf.length_product_le hg (hε.trans (by norm_num))
  -- The share of the normal in what is carried is a quotient, and its divisor is not small.
  have hquotient : (|(1 - k) * (1 + f.real ⬝ᵥ g.real) - length (g.real ⨯₃ f.real) ^ 2| *
      (length p.real * length x.real) * length p.real +
        length (length (g.real ⨯₃ f.real) • p.real - g.real ⨯₃ f.real) * length x.real *
          (|length (g.real ⨯₃ f.real)| * length p.real + length (g.real ⨯₃ f.real))) /
            (1 + f.real ⬝ᵥ g.real) ≤ 1700 * ε + 2000 * 2 ^ (-42 : ℤ) := by
    rw [div_le_iff₀ hpositive, abs_of_nonneg (length_nonneg _)]
    have hsizes := mul_le_mul (mul_le_mul hpole hlength (length_nonneg _) (by norm_num)) hpole
      (length_nonneg _) (by norm_num)
    have hfirst := mul_le_mul hsame hsizes
      (mul_nonneg (mul_nonneg (length_nonneg _) (length_nonneg _)) (length_nonneg _))
      (add_nonneg (mul_nonneg (by positivity) hpositive.le) (by positivity))
    have hsecond := mul_le_mul (mul_le_mul h.along hlength (length_nonneg _) (by positivity))
      (add_le_add (mul_le_mul hcross hpole (length_nonneg _) (by norm_num)) hcross)
      (add_nonneg (mul_nonneg (length_nonneg _) (length_nonneg _)) (length_nonneg _))
      (by positivity)
    have hshare := mul_le_mul_of_nonneg_left hopposite hpos
    norm_num at hfirst hsecond ⊢
    linarith
  have hfirst := mul_le_mul hcosine hlength (length_nonneg _) (by positivity)
  have hsecond := mul_le_mul hsine hlength (length_nonneg _) (by positivity)
  norm_num at hrotate hfirst hsecond hquotient ⊢
  linarith

end Carries

end Vec3

end SolidModel
