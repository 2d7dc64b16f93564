import SolidModel.Proofs.Vec3.Turn
import SolidModel.Vec3.Alignment

/-!
# Perpendiculars

When two vectors have a normal, and that one vector always has one.

Vectors of length one have a normal unless their product is too short, and then they are said to lie
on one line. There is nothing else that can go wrong. The product of two vectors that do not count
as colinear is long enough to be divided by its length, so that the normal has length one.

No vector of length one lies on two of the world axes, whatever the tolerance. So one of the first
two axes already has a normal with it, and the search for an arbitrary one never comes back with
nothing.

## Theorems

* `Vec3.normal_cases`: There is a normal of length one, or the vectors lie on one line.
* `Vec3.arbitraryNormal_normed`: One vector has a normal of length one.
* `Vec3.alignmentAxis_normed`: So a turn has an axis of length one.
-/

namespace SolidModel

open scoped Matrix

namespace Vec3

variable {a b v : Vec3}

theorem value_colinearShare : value colinearShare = 4951760157141521 * 2 ^ (-92 : ℤ) := by
  have h : parts colinearShare = .finite .positive 4951760157141521 (-92) (by decide) := rfl
  rw [value, h, valueOf, signFactor, one_mul]
  norm_cast

theorem inside_cross (ha : a.Inside (2 ^ (1 : ℤ))) (hb : b.Inside (2 ^ (1 : ℤ))) :
    (a.cross b).Inside (2 ^ (5 : ℤ)) := by
  rcases near_cross ha hb with ⟨hfinite, herror⟩
  refine inside_iff.mpr ⟨hfinite, fun i => ?_⟩
  have hcross := (abs_apply_le_length _ i).trans (length_cross_le a.real b.real)
  have hsizes := mul_le_mul ha.length_le hb.length_le (length_nonneg _) (by positivity)
  have htriangle := abs_sub_abs_le_abs_sub ((a.cross b).real i) ((a.real ⨯₃ b.real) i)
  have herror' := herror i
  norm_num at hsizes herror' ⊢
  linarith

/-- The length of a vector of length one is computed with an error. -/
theorem Normed.magnitude_mem {ε : ℝ} (h : v.Normed ε) (hε : ε ≤ 1 / 4) :
    v.magnitude.isFinite = true ∧ 1 / 2 ≤ value v.magnitude ∧ value v.magnitude ≤ 2 := by
  rcases h.square_mem with ⟨hlow, hhigh⟩
  have hsize : v.square ≤ 2 ^ (100 : ℤ) := by
    norm_num
    linarith
  rcases near_magnitude h.finite hsize with ⟨hfinite, hpos, hnear⟩
  have hleast : (2 : ℝ) ^ (-1000 : ℤ) ≤ 2 ^ (-48 : ℤ) :=
    zpow_le_zpow_right₀ one_le_two (by norm_num)
  have hnear' := abs_le.mp hnear
  generalize (2 : ℝ) ^ (-1000 : ℤ) = least at *
  norm_num at hleast hnear'
  refine ⟨hfinite, ?_, ?_⟩
  · refine le_of_sq_le_sq ?_ hpos
    norm_num
    linarith
  · refine le_of_sq_le_sq ?_ zero_le_two
    norm_num
    linarith

theorem Normed.isNull_eq_false {ε : ℝ} (h : v.Normed ε) (hε : ε ≤ 1 / 4) : v.isNull = false := by
  rcases h.square_mem with ⟨hlow, hhigh⟩
  refine Vec3.isNull_eq_false h.finite ?_ ?_ <;> norm_num <;> linarith

/-- The length below which a product counts as none. -/
theorem near_colinear {ε : ℝ} (ha : a.Normed ε) (hb : b.Normed ε) (hε : ε ≤ 1 / 4) :
    (colinearShare * a.magnitude * b.magnitude).isFinite = true ∧
      2 ^ (-43 : ℤ) ≤ value (colinearShare * a.magnitude * b.magnitude) ∧
      value (colinearShare * a.magnitude * b.magnitude) ≤ 2 ^ (-36 : ℤ) := by
  rcases ha.magnitude_mem hε with ⟨hfa, hlowa, hhigha⟩
  rcases hb.magnitude_mem hε with ⟨hfb, hlowb, hhighb⟩
  have hshare : Near colinearShare (value colinearShare) (-39) 0 := by
    refine Near.self rfl ?_
    rw [value_colinearShare, abs_of_nonneg (by positivity)]
    norm_num
  have hleft : Near a.magnitude (value a.magnitude) 1 0 :=
    Near.self hfa (by rw [abs_of_nonneg (by linarith)]; norm_num; exact hhigha)
  have hright : Near b.magnitude (value b.magnitude) 1 0 :=
    Near.self hfb (by rw [abs_of_nonneg (by linarith)]; norm_num; exact hhighb)
  have hnear := (hshare.mul hleft (by norm_num) (by norm_num) (by norm_num) (by norm_num)).mul
    hright (by norm_num) (by norm_num) (by norm_num) (by norm_num)
  have herror := abs_le.mp hnear.error
  -- The exact product lies well within the bounds.
  have hlow := mul_le_mul hlowa hlowb (by norm_num) (by linarith : 0 ≤ value a.magnitude)
  have hhigh := mul_le_mul hhigha hhighb (by linarith) zero_le_two
  rw [value_colinearShare, mul_assoc (4951760157141521 * (2 : ℝ) ^ (-92 : ℤ))] at herror
  generalize value a.magnitude * value b.magnitude = product at *
  refine ⟨hnear.finite, ?_, ?_⟩ <;> norm_num at herror hlow hhigh ⊢ <;> linarith

/-- A normal of length one points along the product, as exactly as the product is computed. -/
theorem length_smul_normal_sub_le {ε : ℝ} (ha : a.Normed ε) (hb : b.Normed ε) (hε : ε ≤ 1 / 4)
    {p : Vec3} (hp : p.Normed (2 ^ (-44 : ℤ)))
    (h : length (length (a.cross b).real • p.real - (a.cross b).real) ≤
      2 ^ (-46 : ℤ) * length (a.cross b).real) :
    length (length (a.real ⨯₃ b.real) • p.real - a.real ⨯₃ b.real) ≤ 2 ^ (-44 : ℤ) := by
  have hcross := length_cross_sub_le (ha.abs_le_two (by linarith)) (hb.abs_le_two (by linarith))
  have hsizes := mul_le_mul ha.length_le hb.length_le (length_nonneg _)
    (by linarith [length_nonneg a.real, ha.length_le])
  have hbound := length_cross_le a.real b.real
  have hε' := (abs_nonneg _).trans ha.near
  generalize (a.cross b).real = c at h hcross
  generalize a.real ⨯₃ b.real = exact at hcross hbound ⊢
  have hlength := abs_length_sub_le c exact
  -- Between the exact product and the computed one there are a length and a direction.
  have hsplit : length exact • p.real - exact =
      (length exact - length c) • p.real + (length c • p.real - c) + (c - exact) := by
    module
  have htriangle :=
    length_add_le ((length exact - length c) • p.real + (length c • p.real - c)) (c - exact)
  have htriangle' := length_add_le ((length exact - length c) • p.real) (length c • p.real - c)
  rw [length_smul, abs_sub_comm] at htriangle'
  have hfirst := mul_le_mul (hlength.trans hcross) hp.length_le (length_nonneg _) (by positivity)
  have hsize := abs_le.mp (hlength.trans hcross)
  have hproduct : length exact ≤ 25 / 16 := by nlinarith
  rw [hsplit]
  norm_num at h hcross hfirst hsize ⊢
  linarith

theorem isNull_or_eq_false {ε : ℝ} (ha : a.Normed ε) (hb : b.Normed ε) (hε : ε ≤ 1 / 4) :
    (a.isNull || b.isNull) = false := by
  rw [ha.isNull_eq_false hε, hb.isNull_eq_false hε]
  rfl

/-- A product that does not count as none is long enough to be divided by its length. -/
theorem normal_of_long {ε : ℝ} (ha : a.Normed ε) (hb : b.Normed ε) (hε : ε ≤ 1 / 4)
    (hlong : ¬ (a.cross b).magnitude ≤ colinearShare * a.magnitude * b.magnitude) :
    ∃ p, a.normal b = .ok p ∧ p.Normed (2 ^ (-44 : ℤ)) ∧ 0 < length (a.cross b).real ∧
      length (length (a.cross b).real • p.real - (a.cross b).real) ≤
        2 ^ (-46 : ℤ) * length (a.cross b).real := by
  have hinside := inside_cross (ha.abs_le_two (by linarith)) (hb.abs_le_two (by linarith))
  have hsize : (a.cross b).square ≤ 2 ^ (100 : ℤ) := hinside.square_le.trans (by norm_num)
  rcases near_magnitude hinside.finite hsize with ⟨hfm, _, hnear⟩
  rcases near_colinear ha hb hε with ⟨hfb, hlow, _⟩
  have hlong' := hlong
  rw [le_iff_value_le hfm hfb, not_le] at hlong'
  -- The bound is far above what underflows, and so is the product.
  have hsquare : 2 ^ (-100 : ℤ) ≤ (a.cross b).square := by
    have h := pow_le_pow_left₀ (by positivity) (hlow.trans hlong'.le) 2
    have hnear' := (abs_le.mp hnear).2
    have hleast : (2 : ℝ) ^ (-1000 : ℤ) ≤ 2 ^ (-90 : ℤ) :=
      zpow_le_zpow_right₀ one_le_two (by norm_num)
    generalize (2 : ℝ) ^ (-1000 : ℤ) = least at *
    norm_num at h hleast hnear' ⊢
    linarith
  rcases normalized_near hinside.finite hsquare hsize with ⟨p, hp, hnormed, hdirection⟩
  refine ⟨p, ?_, hnormed, length_real_pos hsquare, hdirection⟩
  rw [normal, isNull_or_eq_false ha hb hε, if_neg Bool.false_ne_true]
  exact (if_neg hlong).trans hp

/-- Vectors of length one have a normal of length one, or else they lie on one line and their
    product is short. Which of the two it is depends on a comparison of squares, and either way
    something is known of how long the product is. -/
theorem normal_cases {ε : ℝ} (ha : a.Normed ε) (hb : b.Normed ε) (hε : ε ≤ 1 / 4) :
    (∃ p, a.normal b = .ok p ∧ p.Normed (2 ^ (-44 : ℤ)) ∧
      length (length (a.real ⨯₃ b.real) • p.real - a.real ⨯₃ b.real) ≤ 2 ^ (-44 : ℤ)) ∨
      ∃ e, a.normal b = .error e ∧ e.isColinear = true ∧ (a.cross b).square ≤ 2 ^ (-70 : ℤ) := by
  -- The bound on the length is compared as a square, which is what is known of both.
  by_cases hshort : (a.cross b).magnitude ≤ colinearShare * a.magnitude * b.magnitude
  · have hinside := inside_cross (ha.abs_le_two (by linarith)) (hb.abs_le_two (by linarith))
    rcases near_magnitude hinside.finite (hinside.square_le.trans (by norm_num)) with
      ⟨hfm, hpos, hnear⟩
    rcases near_colinear ha hb hε with ⟨hfb, _, hhigh⟩
    refine Or.inr ⟨if 0.0 < a.dot b then .parallel a b else .antiparallel a b, ?_, ?_, ?_⟩
    · rw [normal, isNull_or_eq_false ha hb hε, if_neg Bool.false_ne_true]
      exact if_pos hshort
    · split <;> rfl
    · rw [le_iff_value_le hfm hfb] at hshort
      have h := pow_le_pow_left₀ hpos (hshort.trans hhigh) 2
      have hleast : (2 : ℝ) ^ (-1000 : ℤ) ≤ 2 ^ (-90 : ℤ) :=
        zpow_le_zpow_right₀ one_le_two (by norm_num)
      have hnear' := (abs_le.mp hnear).1
      have hsquare := (a.cross b).square_nonneg
      generalize (2 : ℝ) ^ (-1000 : ℤ) = least at *
      norm_num at h hleast hnear' ⊢
      linarith
  · rcases normal_of_long ha hb hε hshort with ⟨p, hp, hnormed, _, hdirection⟩
    exact Or.inl ⟨p, hp, hnormed, length_smul_normal_sub_le ha hb hε hnormed hdirection⟩

/-- A normal points along the computed product, as exactly as a quotient does, however short it
    is. -/
theorem normal_along {ε : ℝ} {p : Vec3} (ha : a.Normed ε) (hb : b.Normed ε) (hε : ε ≤ 1 / 4)
    (h : a.normal b = .ok p) : 0 < length (a.cross b).real ∧
      length (length (a.cross b).real • p.real - (a.cross b).real) ≤
        2 ^ (-46 : ℤ) * length (a.cross b).real := by
  by_cases hshort : (a.cross b).magnitude ≤ colinearShare * a.magnitude * b.magnitude
  · rw [normal, isNull_or_eq_false ha hb hε, if_neg Bool.false_ne_true] at h
    cases (if_pos hshort).symm.trans h
  · rcases normal_of_long ha hb hε hshort with ⟨_, hp, _, hpos, hdirection⟩
    cases h.symm.trans hp
    exact ⟨hpos, hdirection⟩

/-- Vectors of length one that are apart have a normal. -/
theorem normal_near {ε : ℝ} (ha : a.Normed ε) (hb : b.Normed ε) (hε : ε ≤ 1 / 4)
    (hapart : 2 ^ (-30 : ℤ) ≤ length (a.real ⨯₃ b.real)) :
    ∃ p, a.normal b = .ok p ∧ p.Normed (2 ^ (-44 : ℤ)) ∧
      length (length (a.real ⨯₃ b.real) • p.real - a.real ⨯₃ b.real) ≤ 2 ^ (-44 : ℤ) := by
  rcases normal_cases ha hb hε with h | ⟨_, _, _, hshort⟩
  · exact h
  exfalso
  have hcross := length_cross_sub_le (ha.abs_le_two (by linarith)) (hb.abs_le_two (by linarith))
  have hlength := (abs_le.mp ((abs_length_sub_le _ _).trans hcross)).1
  rw [← length_real_sq] at hshort
  have hshort' : length (a.cross b).real ≤ 2 ^ (-35 : ℤ) :=
    le_of_sq_le_sq (hshort.trans (by norm_num)) (by positivity)
  norm_num at hapart hlength hshort'
  linarith

theorem axisX_normed : axisX.Normed 0 where
  finite := ⟨rfl, rfl, rfl⟩
  near := by
    rw [square, axisX, value_one, value_zero]
    norm_num

theorem axisY_normed : axisY.Normed 0 where
  finite := ⟨rfl, rfl, rfl⟩
  near := by
    rw [square, axisY, value_one, value_zero]
    norm_num

theorem axisZ_normed : axisZ.Normed 0 where
  finite := ⟨rfl, rfl, rfl⟩
  near := by
    rw [square, axisZ, value_one, value_zero]
    norm_num

/-- A vector of length one has a normal of length one, and the first two axes are enough to find
    it. -/
theorem arbitraryNormal_normed {ε : ℝ} (hv : v.Normed ε) (hε : ε ≤ 1 / 4) :
    ∃ p, v.arbitraryNormal = .ok p ∧ p.Normed (2 ^ (-44 : ℤ)) := by
  have hv' := hv.weaken hε
  have haxisX := axisX_normed.weaken (by norm_num : (0 : ℝ) ≤ 1 / 4)
  have haxisY := axisY_normed.weaken (by norm_num : (0 : ℝ) ≤ 1 / 4)
  rw [arbitraryNormal, normalAmong]
  rcases normal_cases hv' haxisX le_rfl with ⟨p, hp, hnormed, _⟩ | ⟨e, he, hcolinear, hshort⟩
  · rw [hp]
    exact ⟨p, rfl, hnormed⟩
  rw [he]
  change ∃ p, (if e.isColinear = true then v.normalAmong [axisY, axisZ] else _) = _ ∧ _
  rw [if_pos hcolinear, normalAmong]
  rcases normal_cases hv' haxisY le_rfl with ⟨p, hp, hnormed, _⟩ | ⟨e', he', _, hshort'⟩
  · rw [hp]
    exact ⟨p, rfl, hnormed⟩
  -- Both products are short, and together they have all the components of the vector.
  exfalso
  have hinside := hv'.abs_le_two (by norm_num)
  have hcrossX := (near_cross hinside (haxisX.abs_le_two (by norm_num))).2
  have hcrossY := (near_cross hinside (haxisY.abs_le_two (by norm_num))).2
  rcases (v.cross axisX).sq_le_square with ⟨_, hz', hy'⟩
  rcases (v.cross axisY).sq_le_square with ⟨_, _, hx'⟩
  have hcomponent {w r : ℝ} (hw : w ^ 2 ≤ 2 ^ (-70 : ℤ)) (h : |w - r| ≤ 2 ^ (-48 : ℤ)) :
      r ^ 2 ≤ 1 / 16 := by
    have hw' : |w| ≤ 2 ^ (-35 : ℤ) := abs_le_of_sq_le_sq (hw.trans (by norm_num)) (by positivity)
    have htriangle := abs_sub_abs_le_abs_sub r w
    rw [abs_sub_comm] at htriangle
    have hr : |r| ≤ 1 / 4 := by
      norm_num at h hw' ⊢
      linarith
    have hsq := sq_le_sq' (abs_le.mp hr).1 (abs_le.mp hr).2
    linarith
  have hxle : (value v.x * value axisY.y - value v.y * value axisY.x) ^ 2 ≤ 1 / 16 :=
    hcomponent (hx'.trans hshort') (hcrossY 2)
  have hyle : (value v.x * value axisX.y - value v.y * value axisX.x) ^ 2 ≤ 1 / 16 :=
    hcomponent (hy'.trans hshort) (hcrossX 2)
  have hzle : (value v.z * value axisX.x - value v.x * value axisX.z) ^ 2 ≤ 1 / 16 :=
    hcomponent (hz'.trans hshort) (hcrossX 1)
  rw [axisX] at hyle hzle
  rw [axisY] at hxle
  rw [value_one, value_zero] at hxle hyle hzle
  have hlow := hv'.square_mem.1
  rw [square] at hlow
  ring_nf at hxle hyle hzle
  linarith

/-- The axis of a turn is found. Of the three attempts, the last one cannot fail for a vector of
    length one. -/
theorem alignmentAxis_normed {ε : ℝ} {fallback inclined reference : Vec3}
    (hfallback : fallback.Normed ε) (hinclined : inclined.Normed ε)
    (hreference : reference.Normed ε) (hε : ε ≤ 1 / 4) :
    ∃ p, (alignmentAxis fallback inclined reference).result = .ok p ∧ p.Normed (2 ^ (-44 : ℤ)) := by
  rw [alignmentAxis]
  rcases normal_cases hinclined hreference hε with ⟨p, hp, hnormed, _⟩ | ⟨e, he, hcolinear, _⟩
  · rw [hp]
    exact ⟨p, rfl, hnormed⟩
  rw [he]
  simp only [if_pos hcolinear]
  rcases normal_cases hfallback hreference hε with ⟨p, hp, hnormed, _⟩ | ⟨e', he', hcolinear', _⟩
  · rw [hp]
    exact ⟨p, rfl, hnormed⟩
  rw [he']
  simp only [if_pos hcolinear']
  rcases arbitraryNormal_normed hfallback hε with ⟨p, hp, hnormed⟩
  exact ⟨p, hp, hnormed⟩

end Vec3

end SolidModel
