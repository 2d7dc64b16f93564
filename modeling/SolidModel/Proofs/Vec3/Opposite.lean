import SolidModel.Proofs.Float.Opposite
import SolidModel.Proofs.Vec3.HalfTurn

/-!
# Opposite Directions

That the turn between opposite directions is half a turn.

Near half a circle an inverse cosine is worth little. If the cosine is off by the last bit, then the
angle is off by more than directions may be that count as equal. So it has to be known of opposite
directions that their computed cosine is minus one and not the next float, and no bound on an error
says so.

The cosine is a quotient. Its dividend is the product of two vectors that are opposite to the last
bit, which is the square of either, up to the sign. Its divisor is the product of their lengths, and
these are roots of that same square. A rounded root never makes up for more than its square had: if
it is rounded up, then by less than what is lost where the square is rounded in its turn. The
divisor does not exceed the dividend, the quotient is not above minus one, and what is below is
brought back.

The axis is an arbitrary one. It is the normal with one of the world axes, and the product with a
world axis is made of the components themselves, so that it is perpendicular to the last bit until
it is divided by its length.

## Theorems

* `value_mul_roots_le`: The product of rounded roots does not exceed what they are the roots of.
* `Vec3.Mirrored.reject`: Opposite vectors have opposite parts.
* `Vec3.unsignedAngle_of_mirrored`: Opposite vectors are half a turn apart.
* `Vec3.arbitraryNormal_perpendicular`: An arbitrary normal is perpendicular.
* `Vec3.alignmentRotation_opposite`: The turn between opposite directions is half a turn.
-/

namespace SolidModel

open scoped Matrix

/-- A rounded root is at most half as many units away from one as its square. -/
theorem two_mul_le_of_root {d root unit : ℝ} {j k : ℤ} (hunit : 0 < unit) (hd : d = 1 + k * unit)
    (hroot : root = 1 + j * unit) (hpos : 0 < root - unit / 2) (h : root - √d ≤ unit / 2) :
    2 * j ≤ k := by
  have hsquare := (Real.le_sqrt' hpos).mp (by linarith : root - unit / 2 ≤ √d)
  -- The middle between two multiples is not a root, since its square is no multiple.
  have hodd : (0 : ℝ) < (2 * j - 1) ^ 2 := by
    have hne : ((2 * j - 1 : ℤ) : ℝ) ≠ 0 := by exact_mod_cast (by omega : 2 * j - 1 ≠ 0)
    push_cast at hne
    positivity
  have hsplit : (root - unit / 2) ^ 2 =
      1 + (2 * j - 1) * unit + (2 * j - 1) ^ 2 * (unit * unit) / 4 := by
    rw [hroot]
    ring
  have hrest := mul_pos hodd (mul_pos hunit hunit)
  have hlt : ((2 * j - 1 : ℤ) : ℝ) < k := by
    push_cast
    refine lt_of_mul_lt_mul_right ?_ hunit.le
    linarith
  have hlt' : 2 * j - 1 < k := by exact_mod_cast hlt
  omega

/-- The product of two numbers near one is rounded to as many units away from one as both
    together. -/
theorem le_add_of_product {s s' p unit : ℝ} {j j' l : ℤ} (hunit : 0 < unit) (hs : s = 1 + j * unit)
    (hs' : s' = 1 + j' * unit) (hp : p = 1 + l * unit) (hsmall : |(s - 1) * (s' - 1)| < unit / 2)
    (h : p - s * s' ≤ unit / 2) : l ≤ j + j' := by
  have hcross := (abs_lt.mp hsmall).2
  have hsplit : s * s' = 1 + (j + j') * unit + (s - 1) * (s' - 1) := by
    rw [hs, hs']
    ring
  have hlt : (l : ℝ) < ((j + j' + 1 : ℤ) : ℝ) := by
    push_cast
    refine lt_of_mul_lt_mul_right ?_ hunit.le
    linarith
  have hlt' : l < j + j' + 1 := by exact_mod_cast hlt
  omega

/-- Rounded roots of a float near one, in units of the float. -/
theorem exists_root_unit {m : Float} {d : ℝ} {n k : ℤ} (hn : -1 ≤ n) (hn' : n ≤ 0)
    (hlow : 2 ^ n ≤ d) (hhigh : d < 2 ^ (n + 1)) (hk : d = 1 + k * 2 ^ (n - 52))
    (h : Rounds √d (value m)) :
    ∃ j : ℤ, value m = 1 + j * 2 ^ (n - 52) ∧ 2 * j ≤ k := by
  have hpos : (0 : ℝ) < 2 ^ n := zpow_pos two_pos n
  have hroot := Real.sqrt_nonneg d
  have hlow' : 2 ^ n ≤ √d := by
    rw [Real.le_sqrt' hpos]
    have hone : (2 : ℝ) ^ n ≤ 1 := zpow_le_one_of_nonpos₀ one_le_two hn'
    nlinarith
  have hhigh' : √d < 2 ^ (n + 1) := by
    have hone : (1 : ℝ) ≤ 2 ^ (n + 1) := one_le_zpow₀ one_le_two (by omega)
    rw [Real.sqrt_lt' (by positivity)]
    nlinarith
  -- The root is in the same range as the float, so that they have one unit.
  have herror := h.abs_sub_le_half (n := n) (by omega) (by rwa [abs_of_nonneg hroot])
  have hle := h.le_abs (k := n) (by omega) (by rwa [abs_of_nonneg hroot])
  have hnonneg := h.nonneg hroot
  rcases exists_value_eq_one_add m hn' hle with ⟨j, hj⟩
  rw [abs_of_nonneg hnonneg] at hle
  refine ⟨j, hj, two_mul_le_of_root (by positivity) hk hj ?_ (le_trans (le_abs_self _) herror)⟩
  have hunit : (2 : ℝ) ^ (n - 52) < 2 ^ n := zpow_lt_zpow_right₀ one_lt_two (by omega)
  have hunit' : (0 : ℝ) < 2 ^ (n - 52) := by positivity
  linarith

section Roots

variable {x m m' : Float}

/-- The product of rounded roots of a float does not exceed the float, if all are in one range of
    exponents. -/
theorem value_mul_le_of_unit {n : ℤ} (hm : m.isFinite = true) (hm' : m'.isFinite = true)
    (h : Rounds √(value x) (value m)) (h' : Rounds √(value x) (value m'))
    (hone : |value m - 1| ≤ 2 ^ (-29 : ℤ)) (hone' : |value m' - 1| ≤ 2 ^ (-29 : ℤ)) (hn : -1 ≤ n)
    (hn' : n ≤ 0) (hlow : 2 ^ n ≤ value x) (hhigh : value x < 2 ^ (n + 1))
    (hproduct : 2 ^ n ≤ value m * value m') (hmean : ((1 + value x) / 2) ^ 2 < 2 ^ (n + 1)) :
    value (m * m') ≤ value x := by
  have hunit : (0 : ℝ) < 2 ^ (n - 52) := by positivity
  rcases exists_value_eq_one_add x hn' (hlow.trans (le_abs_self _)) with ⟨k, hk⟩
  rcases exists_root_unit hn hn' hlow hhigh hk h with ⟨j, hj, hjk⟩
  rcases exists_root_unit hn hn' hlow hhigh hk h' with ⟨j', hj', hjk'⟩
  -- The mean of the roots is no larger than that of the float and one, so that the product is in
  -- range.
  have hsum : value m + value m' ≤ 1 + value x := by
    have hle : ((j + j' : ℤ) : ℝ) ≤ k := by exact_mod_cast (by omega : j + j' ≤ k)
    have hshare := mul_le_mul_of_nonneg_right hle hunit.le
    push_cast at hshare
    rw [hj, hj', hk]
    linarith
  have hbelow : |value m * value m'| < 2 ^ (n + 1) := by
    have hpos : 0 ≤ value m + value m' := by
      have hnear := abs_le.mp hone
      have hnear' := abs_le.mp hone'
      norm_num at hnear hnear'
      linarith
    have hsquare := pow_le_pow_left₀ hpos hsum 2
    have hdistance := sq_nonneg (value m - value m')
    have hsplit : value m * value m' =
        (value m + value m') ^ 2 / 4 - (value m - value m') ^ 2 / 4 := by ring
    rw [abs_of_pos ((zpow_pos two_pos n).trans_le hproduct), hsplit]
    rw [div_pow] at hmean
    linarith
  rcases rounds_mul hm hm' (hbelow.le.trans (zpow_le_zpow_right₀ one_le_two (by omega))) with
    ⟨_, hrounds⟩
  rcases exists_value_eq_one_add (m * m') hn'
    (hrounds.le_abs (by omega) (hproduct.trans (le_abs_self _))) with ⟨l, hl⟩
  have hsmall : |(value m - 1) * (value m' - 1)| < 2 ^ (n - 52) / 2 := by
    have hsize := mul_le_mul hone hone' (abs_nonneg _) (by positivity)
    have hleast : (2 : ℝ) ^ (-53 : ℤ) ≤ 2 ^ (n - 52) := zpow_le_zpow_right₀ one_le_two (by omega)
    rw [abs_mul]
    norm_num at hsize hleast
    linarith
  have hle := le_add_of_product hunit hj hj' hl hsmall
    (le_trans (le_abs_self _) (hrounds.abs_sub_le_half (by omega) hbelow))
  have hcast : (l : ℝ) ≤ k := by exact_mod_cast (by omega : l ≤ k)
  rw [hl, hk]
  exact add_le_add_right (mul_le_mul_of_nonneg_right hcast hunit.le) 1

/-- The product of rounded roots of a float near one does not exceed the float. So the cosine of
    opposite directions, a product of that kind below another one, comes out as minus one or less,
    and is then brought back to minus one exactly. -/
theorem value_mul_roots_le (hm : m.isFinite = true) (hm' : m'.isFinite = true)
    (hx : |value x - 1| ≤ 2 ^ (-29 : ℤ)) (h : Rounds √(value x) (value m))
    (h' : Rounds √(value x) (value m')) (hone : |value m - 1| ≤ 2 ^ (-29 : ℤ))
    (hone' : |value m' - 1| ≤ 2 ^ (-29 : ℤ)) : value (m * m') ≤ value x := by
  have hnear := abs_le.mp hone
  have hnear' := abs_le.mp hone'
  have hnearx := abs_le.mp hx
  norm_num at hnear hnear' hnearx
  -- Floats from one on have the coarser unit, and then their roots are no smaller than one either.
  rcases le_or_gt 1 (value x) with habove | hbelow
  · have hreach {w : Float} (hw : Rounds √(value x) (value w)) (hnonneg : 0 ≤ value w) :
        1 ≤ value w := by
      have hle := hw.le_abs (k := 0) (by norm_num) (by
        rw [zpow_zero, abs_of_nonneg (Real.sqrt_nonneg _)]
        exact Real.one_le_sqrt.mpr habove)
      rwa [zpow_zero, abs_of_nonneg hnonneg] at hle
    have hleft := hreach h (by linarith)
    have hright := hreach h' (by linarith)
    refine value_mul_le_of_unit hm hm' h h' hone hone' (n := 0) (by norm_num) le_rfl ?_ ?_ ?_ ?_
    · rwa [zpow_zero]
    · norm_num
      linarith
    · rw [zpow_zero]
      nlinarith
    · norm_num
      nlinarith
  · refine value_mul_le_of_unit hm hm' h h' hone hone' (n := -1) le_rfl (by norm_num) ?_ ?_ ?_ ?_
    · norm_num
      linarith
    · rwa [neg_add_cancel, zpow_zero]
    · norm_num
      nlinarith
    · rw [neg_add_cancel, zpow_zero]
      nlinarith

end Roots

namespace Vec3

variable {a b f g look p v : Vec3} {degrees : Float} {η : ℝ}

/-! ## Opposite vectors -/

/-- Two vectors with opposite components. -/
structure Mirrored (a b : Vec3) : Prop where
  x : SolidModel.Mirrored a.x b.x
  y : SolidModel.Mirrored a.y b.y
  z : SolidModel.Mirrored a.z b.z

namespace Mirrored

theorem of_real (ha : a.Finite) (hb : b.Finite) (h : b.real = -a.real) : a.Mirrored b where
  x := ⟨ha.1, hb.1, congrFun h 0⟩
  y := ⟨ha.2.1, hb.2.1, congrFun h 1⟩
  z := ⟨ha.2.2, hb.2.2, congrFun h 2⟩

/-- Opposite vectors have opposite products with another one. -/
theorem dot (h : a.Mirrored b) (hfinite : (a.dot v).isFinite = true) :
    SolidModel.Mirrored (a.dot v) (b.dot v) := by
  rcases isFinite_of_add hfinite with ⟨hsum, hz⟩
  rcases isFinite_of_add hsum with ⟨hx, hy⟩
  exact ((h.x.mul hx).add (h.y.mul hy) hsum).add (h.z.mul hz) hfinite

theorem dot_left (h : a.Mirrored b) (hfinite : (v.dot a).isFinite = true) :
    SolidModel.Mirrored (v.dot a) (v.dot b) := by
  rcases isFinite_of_add hfinite with ⟨hsum, hz⟩
  rcases isFinite_of_add hsum with ⟨hx, hy⟩
  exact ((h.x.mul_left hx).add (h.y.mul_left hy) hsum).add (h.z.mul_left hz) hfinite

/-- Opposite vectors have opposite parts perpendicular to a direction. -/
theorem reject (h : a.Mirrored b) (ha : a.Inside (2 ^ (1 : ℤ)))
    (hlook : look.Normed (2 ^ (-44 : ℤ))) : (a.reject look).Mirrored (b.reject look) := by
  have hinside := hlook.abs_le_two (by norm_num)
  rcases hlook.dot_self_mem with ⟨hfs, hsquare⟩
  have hne : value (look.dot look) ≠ 0 := (lt_of_lt_of_le (by norm_num) hsquare).ne'
  have hdot := near_dot ha hinside (by norm_num) (by norm_num) (by norm_num) (by norm_num)
  have hshare := (h.dot hdot.finite).div hfs hne (ha.share_near hlook).1.finite
  have hfinite := (reject_near ha hlook).1
  have hnonzero : ¬ (look.dot look == 0.0) = true := by
    rw [beq_iff_value_eq hfs rfl, value_zero]
    exact hne
  rw [Vec3.reject, if_neg hnonzero] at hfinite
  rw [Vec3.reject, Vec3.reject, if_neg hnonzero, if_neg hnonzero]
  have hcomponent {s s' c : Float} (hs : SolidModel.Mirrored s s')
      (hsub : (s - c * (a.dot look / look.dot look)).isFinite = true) :
      SolidModel.Mirrored (s - c * (a.dot look / look.dot look))
        (s' - c * (b.dot look / look.dot look)) :=
    hs.sub (hshare.mul_left (isFinite_of_sub hsub).2) hsub
  exact ⟨hcomponent h.x hfinite.1, hcomponent h.y hfinite.2.1, hcomponent h.z hfinite.2.2⟩

end Mirrored

/-! ## The angle -/

/-- The computed square of a direction, and the root that is its length. -/
theorem Normed.dot_self_near (ha : a.Normed η) (hη : η ≤ 2 ^ (-30 : ℤ)) :
    (a.dot a).isFinite = true ∧ |value (a.dot a) - 1| ≤ 2 ^ (-29 : ℤ) ∧
      Rounds √(value (a.dot a)) (value a.magnitude) := by
  rcases ha.square_mem with ⟨hlow, hhigh⟩
  have hη' := (abs_nonneg _).trans ha.near
  norm_num at hη
  rcases near_dot_self ha.finite (by norm_num; linarith) with ⟨hfinite, hnonneg, herror⟩
  have herror' := abs_le.mp herror
  have hleast : (2 : ℝ) ^ (-1070 : ℤ) ≤ 2 ^ (-60 : ℤ) :=
    zpow_le_zpow_right₀ one_le_two (by norm_num)
  have hnear : |value (a.dot a) - 1| ≤ 2 ^ (-29 : ℤ) := by
    rw [abs_le]
    generalize (2 : ℝ) ^ (-1070 : ℤ) = least at *
    norm_num at herror' hleast ⊢
    constructor <;> linarith
  have hsize : √(value (a.dot a)) ≤ 2 ^ (1 : ℤ) := by
    have h := (abs_le.mp hnear).2
    rw [Real.sqrt_le_iff]
    norm_num at h ⊢
    linarith
  exact ⟨hfinite, hnear, (rounds_sqrt hfinite hnonneg
    (hsize.trans (zpow_le_zpow_right₀ one_le_two (by norm_num)))).2⟩

/-- A quotient is not above minus one if the divisor does not exceed the dividend, up to its
    sign. -/
theorem value_div_le_neg_one {x d p : Float} (hx : x.isFinite = true) (hp : p.isFinite = true)
    (hdividend : value x = -value d) (hsize : value d ≤ 2) (hpos : 1 / 2 ≤ value p)
    (hle : value p ≤ value d) : (x / p).isFinite = true ∧ value (x / p) ≤ -1 := by
  have hpos' : 0 < value p := by linarith
  have hlow : 1 ≤ value d / value p := (one_le_div hpos').mpr hle
  have hhigh : value d / value p ≤ 2 ^ (2 : ℤ) := by
    rw [div_le_iff₀ hpos']
    norm_num
    linarith
  have hquotient : |value x / value p| = value d / value p := by
    rw [hdividend, neg_div, abs_neg, abs_of_nonneg (by linarith)]
  rcases rounds_div hx hp hpos'.ne' (by
    rw [hquotient]
    exact hhigh.trans (zpow_le_zpow_right₀ one_le_two (by norm_num))) with ⟨hfinite, hrounds⟩
  -- The quotient is at least one in size, one is a float, and rounding does not go past it.
  have hreach := hrounds.le_abs (k := 0) (by norm_num) (by rwa [zpow_zero, hquotient])
  have hsign := hrounds.neg.nonneg (by
    rw [hdividend, neg_div, neg_neg]
    linarith)
  rw [zpow_zero, ← abs_neg, abs_of_nonneg hsign] at hreach
  exact ⟨hfinite, by linarith⟩

/-- The computed product of two lengths near one. -/
theorem near_mul_magnitudes {m m' : Float} (hm : m.isFinite = true) (hm' : m'.isFinite = true)
    (hone : |value m - 1| ≤ 2 ^ (-29 : ℤ)) (hone' : |value m' - 1| ≤ 2 ^ (-29 : ℤ)) :
    (m * m').isFinite = true ∧ 1 / 2 ≤ value (m * m') := by
  have hnear := abs_le.mp hone
  have hnear' := abs_le.mp hone'
  norm_num at hnear hnear'
  have hlow : 2 ^ (-1 : ℤ) ≤ value m * value m' := by
    norm_num
    nlinarith
  have hhigh : |value m * value m'| ≤ 2 ^ (1 : ℤ) := by
    rw [abs_of_nonneg (le_trans (by norm_num) hlow)]
    norm_num
    nlinarith
  rcases rounds_mul hm hm' (hhigh.trans (zpow_le_zpow_right₀ one_le_two (by norm_num))) with
    ⟨hfinite, hrounds⟩
  have hreach := hrounds.le_abs (by norm_num) (hlow.trans (le_abs_self _))
  rw [abs_of_nonneg (hrounds.nonneg (le_trans (by norm_num) hlow))] at hreach
  refine ⟨hfinite, ?_⟩
  norm_num at hreach ⊢
  exact hreach

/-- The computed cosine between opposite directions is not above minus one. -/
theorem Mirrored.cosine_le (h : a.Mirrored b) (ha : a.Normed η) (hb : b.Normed η)
    (hη : η ≤ 2 ^ (-31 : ℤ)) : (a.dot b / (a.magnitude * b.magnitude)).isFinite = true ∧
      value (a.dot b / (a.magnitude * b.magnitude)) ≤ -1 := by
  have hη' : η ≤ 2 ^ (-30 : ℤ) := hη.trans (by norm_num)
  rcases ha.dot_self_near hη' with ⟨hfa, hneara, hroota⟩
  rcases hb.dot_self_near hη' with ⟨_, _, hrootb⟩
  -- All three products are the same number, up to the sign.
  have hmixed := h.dot_left hfa
  have hsame : value (b.dot b) = value (a.dot a) := by
    rw [(h.dot hmixed.right).value, hmixed.value, neg_neg]
  rw [hsame] at hrootb
  rcases ha.magnitude_near hη' with ⟨hfma, hone⟩
  rcases hb.magnitude_near hη' with ⟨hfmb, hone'⟩
  have hbound : η + 2 ^ (-46 : ℤ) ≤ 2 ^ (-29 : ℤ) := by
    norm_num at hη ⊢
    linarith
  have hle :=
    value_mul_roots_le hfma hfmb hneara hroota hrootb (hone.trans hbound) (hone'.trans hbound)
  rcases near_mul_magnitudes hfma hfmb (hone.trans hbound) (hone'.trans hbound) with ⟨hfinite, hpos⟩
  refine value_div_le_neg_one hmixed.right hfinite hmixed.value ?_ hpos hle
  have hsize := (abs_le.mp hneara).2
  norm_num at hsize
  linarith

/-- What is not above minus one is brought back to minus one. -/
theorem value_clampCosine_of_le {c : Float} (hc : c.isFinite = true) (h : value c ≤ -1) :
    value (clampCosine c) = -1 := by
  unfold clampCosine
  by_cases hlow : c < -1.0
  · rw [if_pos hlow, value_minus_one]
  have hhigh : ¬ 1.0 < c := by
    rw [lt_iff_value_lt rfl hc, value_one, not_lt]
    linarith
  rw [if_neg hlow, if_neg hhigh]
  rw [lt_iff_value_lt hc rfl, value_minus_one, not_lt] at hlow
  exact le_antisymm h hlow

theorem abs_pi_mul_degrees_sub_le : |Real.pi * value degreesPerRadian - 180| ≤ 2 ^ (-40 : ℤ) := by
  have hlow := Real.pi_gt_d20
  have hhigh := Real.pi_lt_d20
  rw [value_degreesPerRadian, abs_le]
  norm_num at hlow hhigh ⊢
  constructor <;> linarith

/-- Opposite directions are half a turn apart. No error in the cosine is left that an inverse cosine
    could make much of: near minus one it turns a small error into its root. -/
theorem unsignedAngle_of_mirrored [t : Trigonometry] (accurate : t.Accurate) (h : a.Mirrored b)
    (ha : a.Normed η) (hb : b.Normed η) (hη : η ≤ 2 ^ (-31 : ℤ)) :
    HalfTurn (unsignedAngle a b) := by
  rcases h.cosine_le ha hb hη with ⟨hfinite, hle⟩
  have hminus := value_clampCosine_of_le hfinite hle
  rcases isFinite_clampCosine (isNaN_of_isFinite hfinite) with ⟨hfinite', hrange⟩
  rcases near_degrees accurate hfinite' hrange with ⟨hfangle, _, hnear⟩
  rw [hminus, Real.arccos_neg_one] at hnear
  refine ⟨hfangle, ?_⟩
  have hpi := abs_pi_mul_degrees_sub_le
  change |value (unsignedAngle a b) - _| ≤ _ at hnear
  have htriangle := abs_sub_le (value (unsignedAngle a b)) (Real.pi * value degreesPerRadian) 180
  have hsize := abs_abs_sub_abs_le (value (unsignedAngle a b)) 180
  rw [abs_of_pos (by norm_num : (0 : ℝ) < 180)] at hsize
  norm_num at hnear hpi ⊢
  linarith

/-- Opposite directions are also half a turn apart when they are seen along a direction that they
    are perpendicular to, whichever side they are seen from. -/
theorem signedAngle_of_mirrored [t : Trigonometry] (accurate : t.Accurate) (h : a.Mirrored b)
    (ha : a.Normed η) (hb : b.Normed η) (hη : η ≤ 2 ^ (-32 : ℤ))
    (hlook : look.Normed (2 ^ (-44 : ℤ)))
    (ha' : |a.real ⬝ᵥ look.real| ≤ 2 ^ (-39 : ℤ)) (hb' : |b.real ⬝ᵥ look.real| ≤ 2 ^ (-39 : ℤ)) :
    HalfTurn (signedAngle a b look) := by
  have hη' : η ≤ 1 / 16 := hη.trans (by norm_num)
  have hflata := ha.reject hη' hlook ha'
  have hflatb := hb.reject hη' hlook hb'
  have hbound : η + 2 ^ (-42 : ℤ) ≤ 2 ^ (-31 : ℤ) := by
    norm_num at hη ⊢
    linarith
  have hpos {v : Vec3} (hv : v.Normed (η + 2 ^ (-42 : ℤ))) : 0.0 < v.magnitude := by
    have hmagnitude := hv.magnitude_mem (hbound.trans (by norm_num))
    rw [lt_iff_value_lt rfl hmagnitude.1, value_zero]
    linarith
  -- Opposite vectors have opposite parts, and it is these that are compared.
  have hhalf := unsignedAngle_of_mirrored accurate
    (h.reject (ha.abs_le_two (by linarith)) hlook) hflata hflatb hbound
  have hsigned : signedAngle a b look = if (a.cross b).dot look < 0.0 then
      -unsignedAngle (a.reject look) (b.reject look)
      else unsignedAngle (a.reject look) (b.reject look) := by
    rw [signedAngle]
    simp only [hpos hflata, hpos hflatb, decide_true, Bool.and_self, if_true]
  rw [hsigned]
  split
  · exact hhalf.neg
  · exact hhalf

/-! ## The axis -/

/-- Products with zero and one are exact. -/
theorem value_mul_unit {x y : Float} (hfinite : (x * y).isFinite = true)
    (hy : value y = 0 ∨ value y = 1) : value (x * y) = value x * value y := by
  have hrounds := rounds_mul_of_isFinite hfinite
  rcases hy with hzero | hone
  · rw [hzero, mul_zero, ← value_zero] at hrounds
    rw [hrounds.eq_value, hzero, mul_zero, value_zero]
  · rw [hone, mul_one] at hrounds
    rw [hrounds.eq_value, hone, mul_one]

/-- Minors with a row of zeros and at most a one are computed exactly. -/
theorem value_minor {s t c d : Float} (hfinite : (s * c - t * d).isFinite = true)
    (hc : value c = 0 ∨ value c = 1) (hd : value d = 0 ∨ value d = 1)
    (h : value c = 0 ∨ value d = 0) :
    value (s * c - t * d) = value s * value c - value t * value d := by
  rcases isFinite_of_sub hfinite with ⟨hleft, hright⟩
  have hrounds := rounds_sub_of_isFinite hfinite
  rw [← value_mul_unit hleft hc, ← value_mul_unit hright hd]
  -- One of the products is zero, and what is left is the other one.
  rcases h with hzero | hzero
  · have hnone : value (s * c) = 0 := by rw [value_mul_unit hleft hc, hzero, mul_zero]
    rw [hnone, zero_sub, ← value_neg] at hrounds ⊢
    exact hrounds.eq_value
  · have hnone : value (t * d) = 0 := by rw [value_mul_unit hright hd, hzero, mul_zero]
    rw [hnone, sub_zero] at hrounds ⊢
    exact hrounds.eq_value

/-- The product with a world axis is exact. -/
theorem real_cross_axis {axis : Vec3} (hfinite : (v.cross axis).Finite)
    (haxis : axis ∈ [axisX, axisY, axisZ]) : (v.cross axis).real = v.real ⨯₃ axis.real := by
  have hzero : value 0.0 = 0 ∨ value 0.0 = 1 := Or.inl value_zero
  have hone : value 1.0 = 0 ∨ value 1.0 = 1 := Or.inr value_one
  have hcomponents : (value axis.x = 0 ∨ value axis.x = 1) ∧ (value axis.y = 0 ∨ value axis.y = 1) ∧
      (value axis.z = 0 ∨ value axis.z = 1) ∧ (value axis.x = 0 ∨ value axis.y = 0) ∧
      (value axis.y = 0 ∨ value axis.z = 0) ∧ (value axis.z = 0 ∨ value axis.x = 0) := by
    rcases List.mem_cons.mp haxis with rfl | haxis
    · exact ⟨hone, hzero, hzero, Or.inr value_zero, Or.inl value_zero, Or.inl value_zero⟩
    rcases List.mem_cons.mp haxis with rfl | haxis
    · exact ⟨hzero, hone, hzero, Or.inl value_zero, Or.inr value_zero, Or.inl value_zero⟩
    rcases List.mem_singleton.mp haxis with rfl
    exact ⟨hzero, hzero, hone, Or.inl value_zero, Or.inl value_zero, Or.inr value_zero⟩
  rcases hcomponents with ⟨hx, hy, hz, hxy, hyz, hzx⟩
  rw [cross_apply]
  ext i
  fin_cases i
  · exact value_minor hfinite.1 hz hy hyz.symm
  · exact value_minor hfinite.2.1 hx hz hzx.symm
  · exact value_minor hfinite.2.2 hy hx hxy.symm

theorem normed_of_mem_axes {axis : Vec3} (h : axis ∈ [axisX, axisY, axisZ]) : axis.Normed 0 := by
  rcases List.mem_cons.mp h with rfl | h
  · exact axisX_normed
  rcases List.mem_cons.mp h with rfl | h
  · exact axisY_normed
  rcases List.mem_singleton.mp h with rfl
  exact axisZ_normed

/-- What an arbitrary normal is the normal with. -/
theorem exists_of_normalAmong {axes : List Vec3} (h : v.normalAmong axes = .ok p) :
    ∃ axis ∈ axes, v.normal axis = .ok p := by
  induction axes with
  | nil => cases h
  | cons axis rest ih =>
      rw [normalAmong] at h
      cases hnormal : v.normal axis with
      | ok n =>
          rw [hnormal] at h
          exact ⟨axis, List.mem_cons_self, hnormal.trans h⟩
      | error e =>
          rw [hnormal] at h
          simp only at h
          split at h
          · rcases ih h with ⟨other, hmem, hother⟩
            exact ⟨other, List.mem_cons_of_mem axis hmem, hother⟩
          · cases h

/-- An arbitrary normal is perpendicular. -/
theorem arbitraryNormal_perpendicular (hv : v.Normed η) (hη : η ≤ 1 / 16) :
    ∃ p, v.arbitraryNormal = .ok p ∧ p.Normed (2 ^ (-44 : ℤ)) ∧
      |v.real ⬝ᵥ p.real| ≤ 17 / 16 * 2 ^ (-46 : ℤ) := by
  rcases arbitraryNormal_normed hv (hη.trans (by norm_num)) with ⟨p, hp, hnormed⟩
  refine ⟨p, hp, hnormed, ?_⟩
  rcases exists_of_normalAmong hp with ⟨axis, haxis, hnormal⟩
  have haxis' := (normed_of_mem_axes haxis).weaken (by norm_num : (0 : ℝ) ≤ 1 / 4)
  have hv' := hv.weaken (hη.trans (by norm_num) : η ≤ 1 / 4)
  rcases normal_along hv' haxis' le_rfl hnormal with ⟨hpos, hdirection⟩
  have hexact := real_cross_axis
    (inside_cross (hv.abs_le_two (by linarith)) (haxis'.abs_le_two (by norm_num))).finite haxis
  have hperp : v.real ⬝ᵥ (v.cross axis).real = 0 := by rw [hexact, dot_self_cross]
  generalize (v.cross axis).real = c at *
  -- However short the product is, its direction is known as well as that of any vector.
  have hsplit : length c * (v.real ⬝ᵥ p.real) = v.real ⬝ᵥ (length c • p.real - c) := by
    rw [dotProduct_sub, dotProduct_smul, hperp, sub_zero, smul_eq_mul]
  have hproduct := (abs_dot_le v.real (length c • p.real - c)).trans
    (mul_le_mul (hv.length_le.trans (by linarith) : length v.real ≤ 17 / 16) hdirection
      (length_nonneg _) (by norm_num))
  rw [← hsplit, abs_mul, abs_of_pos hpos] at hproduct
  refine le_of_mul_le_mul_left ?_ hpos
  linarith

/-! ## The turn -/

/-- The turn between opposite directions is half a turn, about an axis that is perpendicular to
    them. They have no normal, so that the axis is an arbitrary normal of the one that serves as a
    fallback. -/
theorem alignmentRotation_opposite [t : Trigonometry] (accurate : t.Accurate) (hf : f.Normed η)
    (hg : g.Normed η) (hη : η ≤ 2 ^ (-32 : ℤ)) (h : f.real = -g.real) :
    ∃ angle axis p, (alignmentRotation f g).result = .ok (angle, axis) ∧ axis.normalized = .ok p ∧
      HalfTurn angle ∧ p.Normed (2 ^ (-44 : ℤ)) ∧ |f.real ⬝ᵥ p.real| ≤ 2 ^ (-42 : ℤ) := by
  have hη' : η ≤ 2 ^ (-30 : ℤ) := hη.trans (by norm_num)
  have hη'' : η ≤ 1 / 4 := hη.trans (by norm_num)
  have hlength : length f.real ≤ 17 / 16 := hf.length_le.trans (by norm_num at hη ⊢; linarith)
  rcases arbitraryNormal_perpendicular hf (hη.trans (by norm_num)) with
    ⟨axis, haxis, hnormed, hperp⟩
  rcases normalized_normed hnormed with ⟨p, hp, hpole, hsame⟩
  -- The fallback is the direction itself, so that neither it nor the other one has a normal.
  have hopposite := normal_of_opposite hg hf hη' (by
    rw [h, add_neg_cancel, length_zero]
    positivity)
  have hfallback := normal_of_short_product hf hf hη' (by
    rw [cross_self, length_zero]
    positivity)
  have halignment : (alignmentAxis f g f).result = .ok axis := by
    have hcolinear :
      (if 0.0 < f.dot f then Degeneracy.parallel f f else .antiparallel f f).isColinear =
        true := by split <;> rfl
    rw [alignmentAxis, hopposite]
    simp only [if_pos (show (Degeneracy.antiparallel g f).isColinear = true from rfl)]
    rw [hfallback]
    simp only [if_pos hcolinear]
    exact haxis
  have hperp' : |g.real ⬝ᵥ axis.real| ≤ 17 / 16 * 2 ^ (-46 : ℤ) := by
    rwa [show g.real = -f.real by rw [h, neg_neg], neg_dotProduct, abs_neg]
  have hhalf := signedAngle_of_mirrored accurate (Mirrored.of_real hg.finite hf.finite h) hg
    hf hη hnormed (hperp'.trans (by norm_num)) (hperp.trans (by norm_num))
  refine ⟨signedAngle g f axis, axis, p, ?_, hp, hhalf, hpole, ?_⟩
  · refine Logged.bind_eq_ok_iff.mpr ⟨axis, halignment, ?_⟩
    refine Logged.bind_eq_ok_iff.mpr ⟨signedAngle g f axis, ?_, rfl⟩
    rw [Logged.ofExcept_result, angleBetween, hg.isNull_eq_false hη'', hf.isNull_eq_false hη'']
    rfl
  · have hadd := abs_dot_le_add f.real p.real axis.real
    have hproduct := mul_le_mul hlength hsame (length_nonneg _) (by norm_num)
    norm_num at hperp hproduct ⊢
    linarith

end Vec3

end SolidModel
