import SolidModel.Proofs.Vec3.Carry

/-!
# Half Turns

The one turn whose way is known without its directions.

A turn by half a circle takes away what lies across its pole, and does so twice over. It can be
taken about any perpendicular of a direction to bring this direction to its opposite, and about a
pole itself to leave the pole and to bring all its perpendiculars to their opposites. Which side it
is seen from does not matter.

Opposite directions have no normal that could be found, and a product of two directions that is too
short to be told from an error is given up in favour of such a turn.

## Main definitions

* `HalfTurn`: Half a circle in degrees, of either sign.
* `halfTurned`: A vector after half a turn.

## Theorems

* `Vec3.HalfTurn.rotate_near`: Half a turn does what it is meant to do.
* `Vec3.HalfTurn.rotate_across`, `Vec3.HalfTurn.rotate_along`: What it does to perpendiculars and to
  the pole.
* `Vec3.normal_of_short_product`: Directions with a short product count as colinear.
* `Vec3.normal_of_opposite`: Opposite directions count as antiparallel.
-/

namespace SolidModel

open scoped Matrix

/-- A vector after half a turn about a pole. -/
noncomputable def halfTurned (p x : Fin 3 → ℝ) : Fin 3 → ℝ := (p ⬝ᵥ x + p ⬝ᵥ x) • p - x

/-- What half a turn is short of, in terms of what its cosine and its sine are. -/
theorem length_turned_sub_halfTurned_le (k s : ℝ) (p x : Fin 3 → ℝ) :
    length (turned k s p x - halfTurned p x) ≤ |k + 1| * length x + |s| * (length p * length x) +
      length p * length x * |k + 1| * length p := by
  have hsplit : turned k s p x - halfTurned p x =
      (k + 1) • x + s • (p ⨯₃ x) + -(((p ⬝ᵥ x) * (k + 1)) • p) := by
    rw [turned, halfTurned]
    module
  rw [hsplit]
  refine (length_add_le _ _).trans (add_le_add ((length_add_le _ _).trans (add_le_add ?_ ?_)) ?_)
  · exact (length_smul _ _).le
  · rw [length_smul]
    exact mul_le_mul_of_nonneg_left (length_cross_le p x) (abs_nonneg s)
  · rw [length_neg, length_smul, abs_mul]
    exact mul_le_mul_of_nonneg_right (mul_le_mul_of_nonneg_right (abs_dot_le p x) (abs_nonneg _))
      (length_nonneg p)

/-- What is perpendicular to the pole is brought to its opposite. -/
theorem length_halfTurned_add_le (p x : Fin 3 → ℝ) :
    length (halfTurned p x + x) ≤ 2 * |p ⬝ᵥ x| * length p := by
  rw [halfTurned, sub_add_cancel, length_smul, ← two_mul, abs_mul, abs_two]

/-- What lies along the pole is left where it is. -/
theorem length_halfTurned_sub_le (p x : Fin 3 → ℝ) :
    length (halfTurned p x - p) ≤ 2 * |p ⬝ᵥ p - 1| * length p +
      2 * length p * length (x - p) * length p + length (x - p) := by
  have hsplit : halfTurned p x - p =
      (2 * (p ⬝ᵥ p - 1)) • p + (2 * (p ⬝ᵥ (x - p))) • p + -(x - p) := by
    rw [halfTurned, dotProduct_sub]
    module
  rw [hsplit]
  refine (length_add_le _ _).trans (add_le_add ((length_add_le _ _).trans (add_le_add ?_ ?_)) ?_)
  · rw [length_smul, abs_mul, abs_two]
  · rw [length_smul, abs_mul, abs_two]
    have h := mul_le_mul_of_nonneg_right (abs_dot_le p (x - p)) (length_nonneg p)
    linarith
  · rw [length_neg]

namespace Vec3

/-- Half a circle in degrees, of either sign. -/
structure HalfTurn (degrees : Float) : Prop where
  /-- The degrees have a value. -/
  finite : degrees.isFinite = true
  /-- The value is near to half a circle, in one sense or the other. -/
  near : |(|value degrees| - 180)| ≤ 2 ^ (-36 : ℤ)

variable {a b p x w : Vec3} {degrees : Float} {δ ε η : ℝ}

namespace HalfTurn

theorem neg (h : HalfTurn degrees) : HalfTurn (-degrees) where
  finite := by rw [isFinite_neg, h.finite]
  near := by
    rw [value_neg, abs_neg]
    exact h.near

theorem size (h : HalfTurn degrees) : |value degrees| ≤ 2 ^ (8 : ℤ) := by
  have hnear := (abs_le.mp h.near).2
  norm_num at hnear ⊢
  linarith

/-- Half a circle in radians. -/
theorem radians_near (h : HalfTurn degrees) :
    |(|value (degrees * radiansPerDegree)| - Real.pi)| ≤ 2 ^ (-41 : ℤ) := by
  have hsmall : Near radiansPerDegree (value radiansPerDegree) (-5) 0 :=
    Near.self rfl (abs_radiansPerDegree_le.trans (by norm_num))
  have herror := ((Near.self h.finite h.size).mul hsmall (by norm_num) (by norm_num) (by norm_num)
    (by norm_num)).error
  have hpi : |180 * value radiansPerDegree - Real.pi| ≤ 2 ^ (-52 : ℤ) := by
    have hlow := Real.pi_gt_d20
    have hhigh := Real.pi_lt_d20
    rw [value_radiansPerDegree, abs_le]
    norm_num at hlow hhigh ⊢
    constructor <;> linarith
  have hpositive : 0 ≤ value radiansPerDegree := by
    rw [value_radiansPerDegree]
    positivity
  have hshare := mul_le_mul h.near abs_radiansPerDegree_le (abs_nonneg _) (by positivity)
  rw [← abs_mul] at hshare
  have hround := abs_abs_sub_abs_le (value (degrees * radiansPerDegree))
    (value degrees * value radiansPerDegree)
  rw [abs_mul (value degrees), abs_of_nonneg hpositive] at hround
  -- The rounding, what the degrees are off, and that the factor is not quite its share of half a
  -- circle.
  have hsplit : |value (degrees * radiansPerDegree)| - Real.pi =
      |value (degrees * radiansPerDegree)| - |value degrees| * value radiansPerDegree +
        (|value degrees| - 180) * value radiansPerDegree +
        (180 * value radiansPerDegree - Real.pi) := by
    ring
  rw [hsplit]
  refine (abs_add_le _ _).trans ((add_le_add_left (abs_add_le _ _) _).trans ?_)
  norm_num at herror hshare hpi ⊢
  linarith

/-- The sine and the cosine of half a circle. -/
theorem factors_near [t : Trigonometry] (accurate : t.Accurate) (h : HalfTurn degrees) :
    |value (t.cos (degrees * radiansPerDegree)) + 1| ≤ 2 ^ (-40 : ℤ) ∧
      |value (t.sin (degrees * radiansPerDegree))| ≤ 2 ^ (-40 : ℤ) := by
  have hfinite := isFinite_radians h.finite h.size
  have hradians := h.radians_near
  have hcos := (accurate.cos _ hfinite).2
  have hsin := (accurate.sin _ hfinite).2
  -- The sign of the angle is lost in the cosine, and in the size of the sine.
  have hcos' := Real.abs_cos_sub_cos_le |value (degrees * radiansPerDegree)| Real.pi
  have hsin' := Real.abs_sin_sub_sin_le |value (degrees * radiansPerDegree)| Real.pi
  rw [Real.cos_abs, Real.cos_pi, sub_neg_eq_add] at hcos'
  have hsign : |Real.sin (|value (degrees * radiansPerDegree)|)| =
      |Real.sin (value (degrees * radiansPerDegree))| := by
    rcases abs_choice (value (degrees * radiansPerDegree)) with h | h <;> rw [h]
    rw [Real.sin_neg, abs_neg]
  rw [Real.sin_pi, sub_zero, hsign] at hsin'
  constructor
  · have htriangle := abs_sub_le (value (t.cos (degrees * radiansPerDegree)))
      (Real.cos (value (degrees * radiansPerDegree))) (-1)
    rw [sub_neg_eq_add, sub_neg_eq_add] at htriangle
    norm_num at hcos hradians ⊢
    linarith
  · have htriangle := abs_sub_abs_le_abs_sub (value (t.sin (degrees * radiansPerDegree)))
      (Real.sin (value (degrees * radiansPerDegree)))
    norm_num at hsin hradians ⊢
    linarith

/-- Half a turn does what it is meant to do. -/
theorem rotate_near [t : Trigonometry] (accurate : t.Accurate) (h : HalfTurn degrees)
    (hp : p.Normed (2 ^ (-44 : ℤ))) (hx : x.Normed η) (hη : η ≤ 1 / 16)
    (hw : x.rotate degrees p = .ok w) :
    length (w.real - halfTurned p.real x.real) ≤ 2 ^ (-37 : ℤ) := by
  rcases Vec3.rotate_near accurate (hx.abs_le_two (hη.trans (by norm_num))) (by norm_num)
    (by norm_num) hp h.finite h.size with ⟨_, hw', _, hnear⟩
  cases hw.symm.trans hw'
  rcases h.factors_near accurate with ⟨hk, hs⟩
  generalize value (t.cos (degrees * radiansPerDegree)) = k at *
  generalize value (t.sin (degrees * radiansPerDegree)) = s at *
  have hexact := length_turned_sub_halfTurned_le k s p.real x.real
  have htriangle := length_sub_le w.real (turned k s p.real x.real) (halfTurned p.real x.real)
  have hlength : length x.real ≤ 17 / 16 := hx.length_le.trans (by linarith)
  have hpole : length p.real ≤ 17 / 16 := hp.length_le.trans (by norm_num)
  have hproduct := mul_le_mul hpole hlength (length_nonneg _) (by norm_num)
  -- What the cosine is off, the sine, and the cosine once more along the pole.
  have hfirst := mul_le_mul hk hlength (length_nonneg _) (by positivity)
  have hsecond :=
    mul_le_mul hs hproduct (mul_nonneg (length_nonneg _) (length_nonneg _)) (by positivity)
  have hthird := mul_le_mul (mul_le_mul hproduct hk (abs_nonneg _) (by norm_num)) hpole
    (length_nonneg _) (by positivity)
  norm_num at hnear hfirst hsecond hthird ⊢
  linarith

/-- Half a turn about a perpendicular brings a direction to its opposite. What the pole lacks from
    being perpendicular counts three times. -/
theorem rotate_across [t : Trigonometry] (accurate : t.Accurate) (h : HalfTurn degrees)
    (hp : p.Normed (2 ^ (-44 : ℤ))) (hx : x.Normed η) (hη : η ≤ 1 / 16)
    (hw : x.rotate degrees p = .ok w) (hacross : |x.real ⬝ᵥ p.real| ≤ δ) :
    length (w.real + x.real) ≤ 2 ^ (-37 : ℤ) + 3 * δ := by
  have hrotate := h.rotate_near accurate hp hx hη hw
  have hturned := length_halfTurned_add_le p.real x.real
  rw [dotProduct_comm] at hturned
  have htriangle := length_sub_le w.real (halfTurned p.real x.real) (-x.real)
  rw [sub_neg_eq_add, sub_neg_eq_add] at htriangle
  have hproduct := mul_le_mul hacross hp.length_le (length_nonneg _) ((abs_nonneg _).trans hacross)
  have hδ := (abs_nonneg _).trans hacross
  norm_num at hproduct hrotate ⊢
  linarith

/-- Half a turn leaves the pole where it is. This keeps the axes together when opposite normals are
    turned about the axis of the target. -/
theorem rotate_along [t : Trigonometry] (accurate : t.Accurate) (h : HalfTurn degrees)
    (hp : p.Normed (2 ^ (-44 : ℤ))) (hx : x.Normed η) (hη : η ≤ 1 / 16)
    (hw : x.rotate degrees p = .ok w) (halong : length (x.real - p.real) ≤ δ) :
    length (w.real - p.real) ≤ 2 ^ (-36 : ℤ) + 4 * δ := by
  have hrotate := h.rotate_near accurate hp hx hη hw
  have hturned := length_halfTurned_sub_le p.real x.real
  have htriangle := length_sub_le w.real (halfTurned p.real x.real) p.real
  have hlength : length p.real ≤ 17 / 16 := hp.length_le.trans (by norm_num)
  have hself := mul_le_mul hp.near_real hlength (length_nonneg _) (by positivity)
  have hδ := (length_nonneg _).trans halong
  have hshare := mul_le_mul (mul_le_mul hlength halong (length_nonneg _) (by norm_num)) hlength
    (length_nonneg _) (by positivity)
  norm_num at hrotate hself hshare ⊢
  linarith

end HalfTurn

/-- The length below which a product counts as none, for directions of length one. -/
theorem Normed.le_colinear (ha : a.Normed η) (hb : b.Normed η) (hη : η ≤ 2 ^ (-30 : ℤ)) :
    (colinearShare * a.magnitude * b.magnitude).isFinite = true ∧
      2 ^ (-40 : ℤ) ≤ value (colinearShare * a.magnitude * b.magnitude) := by
  rcases ha.magnitude_near hη with ⟨hfa, hna⟩
  rcases hb.magnitude_near hη with ⟨hfb, hnb⟩
  have hna' := abs_le.mp hna
  have hnb' := abs_le.mp hnb
  norm_num at hη hna' hnb'
  have hshare : Near colinearShare (value colinearShare) (-39) 0 := by
    refine Near.self rfl ?_
    rw [value_colinearShare, abs_of_nonneg (by positivity)]
    norm_num
  have hlength {v : Vec3} (hfv : v.magnitude.isFinite = true) (hlow : 1 / 2 ≤ value v.magnitude)
      (hhigh : value v.magnitude ≤ 2) : Near v.magnitude (value v.magnitude) 1 0 :=
    Near.self hfv (by rw [abs_of_nonneg (by linarith)]; norm_num; exact hhigh)
  have hnear := (hshare.mul (hlength hfa (by linarith) (by linarith)) (by norm_num) (by norm_num)
    (by norm_num) (by norm_num)).mul (hlength hfb (by linarith) (by linarith)) (by norm_num)
    (by norm_num) (by norm_num) (by norm_num)
  refine ⟨hnear.finite, ?_⟩
  have herror := (abs_le.mp hnear.error).1
  have hproduct := mul_le_mul (by norm_num; linarith : 1 - 2 ^ (-29 : ℤ) ≤ value a.magnitude)
    (by norm_num; linarith : 1 - 2 ^ (-29 : ℤ) ≤ value b.magnitude) (by norm_num) (by linarith)
  rw [value_colinearShare, mul_assoc (4951760157141521 * (2 : ℝ) ^ (-92 : ℤ))] at herror
  generalize value a.magnitude * value b.magnitude = product at *
  norm_num at herror hproduct ⊢
  linarith

/-- Directions with a short product count as colinear. The comparison is one of squares, with a
    tolerance of its own that is much smaller than that of closeness, and here it is known to be
    met. -/
theorem normal_of_short_product (ha : a.Normed η) (hb : b.Normed η) (hη : η ≤ 2 ^ (-30 : ℤ))
    (h : length (a.real ⨯₃ b.real) ≤ 17 / 16 * 2 ^ (-41 : ℤ)) :
    a.normal b = .error (if 0.0 < a.dot b then .parallel a b else .antiparallel a b) := by
  have hη' : η ≤ 1 / 4 := hη.trans (by norm_num)
  have ha' := ha.abs_le_two (hη'.trans (by norm_num))
  have hb' := hb.abs_le_two (hη'.trans (by norm_num))
  have hinside := inside_cross ha' hb'
  have hnull : (a.isNull || b.isNull) = false := by
    rw [ha.isNull_eq_false hη', hb.isNull_eq_false hη']
    rfl
  rcases near_magnitude hinside.finite (hinside.square_le.trans (by norm_num)) with ⟨hfm, _, hnear⟩
  rcases ha.le_colinear hb hη with ⟨hfb, hlow⟩
  have hcomputed := (abs_le.mp ((abs_length_sub_le _ _).trans (length_cross_sub_le ha' hb'))).2
  have hsquare : (a.cross b).square ≤ (9 / 8 * 2 ^ (-41 : ℤ)) ^ 2 := by
    rw [← length_real_sq]
    refine pow_le_pow_left₀ (length_nonneg _) ?_ 2
    norm_num at h hcomputed ⊢
    linarith
  have hleast : (2 : ℝ) ^ (-1000 : ℤ) ≤ 2 ^ (-100 : ℤ) :=
    zpow_le_zpow_right₀ one_le_two (by norm_num)
  -- A computed length is compared, which is off by less than the bound leaves room for.
  have hshort : (a.cross b).magnitude ≤ colinearShare * a.magnitude * b.magnitude := by
    rw [le_iff_value_le hfm hfb]
    refine le_trans (le_of_sq_le_sq ?_ (by positivity)) hlow
    have hnear' := (abs_le.mp hnear).2
    generalize (2 : ℝ) ^ (-1000 : ℤ) = least at *
    norm_num at hsquare hleast hnear' ⊢
    linarith
  rw [normal, hnull, if_neg Bool.false_ne_true]
  exact if_pos hshort

/-- Opposite directions count as antiparallel. -/
theorem normal_of_opposite (ha : a.Normed η) (hb : b.Normed η) (hη : η ≤ 2 ^ (-30 : ℤ))
    (h : length (a.real + b.real) ≤ 2 ^ (-41 : ℤ)) : a.normal b = .error (.antiparallel a b) := by
  have hη' : η ≤ 1 / 16 := hη.trans (by norm_num)
  have hlength : length a.real ≤ 17 / 16 := ha.length_le.trans (by linarith)
  have hcross : length (a.real ⨯₃ b.real) ≤ 17 / 16 * 2 ^ (-41 : ℤ) := by
    have hsplit : a.real ⨯₃ b.real = a.real ⨯₃ (a.real + b.real) := by
      rw [map_add, cross_self, zero_add]
    rw [hsplit]
    exact (length_cross_le _ _).trans (mul_le_mul hlength h (length_nonneg _) (by norm_num))
  -- The product is almost minus one, and no error brings it near zero.
  have hdot : ¬ 0.0 < a.dot b := by
    have hnear := near_dot (ha.abs_le_two (by linarith)) (hb.abs_le_two (by linarith)) (by norm_num)
      (by norm_num) (by norm_num) (by norm_num)
    have herror := (abs_le.mp hnear.error).2
    have hproduct := (abs_dot_le a.real (a.real + b.real)).trans
      (mul_le_mul hlength h (length_nonneg _) (by norm_num))
    have hself := (abs_le.mp ha.near_real).1
    rw [dotProduct_add] at hproduct
    have hproduct' := (abs_le.mp hproduct).2
    rw [lt_iff_value_lt rfl hnear.finite, value_zero, not_lt]
    norm_num at herror hproduct' hη
    linarith
  rw [normal_of_short_product ha hb hη hcross, if_neg hdot]

end Vec3

end SolidModel
