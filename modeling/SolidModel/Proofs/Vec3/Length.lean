import SolidModel.Proofs.Float.Error
import SolidModel.Proofs.Vec3.Exact
import SolidModel.Proofs.Vec3.Valid

/-!
# Lengths

How exact the computed length of a vector is.

The length is the root of a sum of squares. Nothing cancels in it, so that it has about as many
digits as its terms have, except where squares vanish because they are too small. Vectors whose
length is neither tiny nor huge can be divided by it then, and what they become has length one up
to a few units in the last place.

## Main definitions

* `Vec3.real`: A vector as a real one.
* `Vec3.square`: The exact square of the length.
* `Vec3.Normed`: The length is one, up to an error in its square.

## Theorems

* `Vec3.near_magnitude`: The computed length is near the exact one.
* `Vec3.normed_of_magnitude`: A computed length of one means a length of one.
* `Vec3.normalized_near`: A vector divided by its length has length one and points the same way.
-/

namespace SolidModel

open scoped Matrix

namespace Vec3

variable {v : Vec3}

/-- All components are finite and do not exceed a bound. -/
structure Inside (v : Vec3) (bound : ℝ) : Prop where
  /-- The components have values. -/
  finite : v.Finite
  /-- The first does not exceed the bound, in either sense. -/
  x : |value v.x| ≤ bound
  /-- The second does not exceed it. -/
  y : |value v.y| ≤ bound
  /-- The third does not exceed it. -/
  z : |value v.z| ≤ bound

/-- The square of the length, as a number. -/
noncomputable def square (v : Vec3) : ℝ := value v.x ^ 2 + value v.y ^ 2 + value v.z ^ 2

/-- The vector as it is meant. -/
noncomputable def real (v : Vec3) : Fin 3 → ℝ := ![value v.x, value v.y, value v.z]

theorem square_eq (v : Vec3) : v.square = v.real ⬝ᵥ v.real := by
  rw [Matrix.vec3_dotProduct, square, real, sq, sq, sq]
  rfl

theorem length_real_sq (v : Vec3) : length v.real ^ 2 = v.square := by
  rw [length_sq, square_eq]

theorem inside_iff {bound : ℝ} : v.Inside bound ↔ v.Finite ∧ ∀ i, |v.real i| ≤ bound := by
  rw [Fin.forall_fin_succ, Fin.forall_fin_two]
  exact ⟨fun h => ⟨h.finite, h.x, h.y, h.z⟩, fun h => ⟨h.1, h.2.1, h.2.2.1, h.2.2.2⟩⟩

theorem Inside.mono {bound bound' : ℝ} (h : v.Inside bound) (hle : bound ≤ bound') :
    v.Inside bound' :=
  ⟨h.finite, h.x.trans hle, h.y.trans hle, h.z.trans hle⟩

theorem Inside.square_le {bound : ℝ} (h : v.Inside bound) : v.square ≤ 3 * bound ^ 2 := by
  have hx := sq_le_sq' (abs_le.mp h.x).1 (abs_le.mp h.x).2
  have hy := sq_le_sq' (abs_le.mp h.y).1 (abs_le.mp h.y).2
  have hz := sq_le_sq' (abs_le.mp h.z).1 (abs_le.mp h.z).2
  unfold square
  linarith

theorem Inside.length_le {bound : ℝ} (h : v.Inside bound) : length v.real ≤ 2 * bound :=
  length_le_of_abs_le (inside_iff.mp h).2

theorem square_nonneg (v : Vec3) : 0 ≤ v.square := by
  unfold square
  positivity

/-- No component is longer than the vector. -/
theorem sq_le_square (v : Vec3) :
    value v.x ^ 2 ≤ v.square ∧ value v.y ^ 2 ≤ v.square ∧ value v.z ^ 2 ≤ v.square := by
  have hx := sq_nonneg (value v.x)
  have hy := sq_nonneg (value v.y)
  have hz := sq_nonneg (value v.z)
  unfold square
  refine ⟨?_, ?_, ?_⟩ <;> linarith

/-- The computed square of a number that is not too large. -/
theorem near_mul_self {x : Float} (hx : x.isFinite = true) (h : value x ^ 2 ≤ 2 ^ (100 : ℤ)) :
    (x * x).isFinite = true ∧ 0 ≤ value (x * x) ∧
      |value (x * x) - value x ^ 2| ≤ 2 ^ (-53 : ℤ) * value x ^ 2 + 2 ^ (-1075 : ℤ) := by
  have hpos := sq_nonneg (value x)
  rw [sq] at h hpos ⊢
  rcases rounds_mul hx hx (by
    rw [abs_of_nonneg hpos]
    exact h.trans (zpow_le_zpow_right₀ one_le_two (by norm_num))) with ⟨hfinite, hrounds⟩
  have herror := hrounds.abs_sub_le_mul
  rw [abs_of_nonneg hpos] at herror
  exact ⟨hfinite, hrounds.nonneg hpos, herror⟩

/-- The computed sum of numbers that are neither negative nor too large. -/
theorem near_add {x y : Float} (hx : x.isFinite = true) (hy : y.isFinite = true) (hx' : 0 ≤ value x)
    (hy' : 0 ≤ value y) (h : value x + value y ≤ 2 ^ (110 : ℤ)) :
    (x + y).isFinite = true ∧ 0 ≤ value (x + y) ∧ |value (x + y) - (value x + value y)| ≤
      2 ^ (-53 : ℤ) * (value x + value y) + 2 ^ (-1075 : ℤ) := by
  have hpos := add_nonneg hx' hy'
  rcases rounds_add hx hy (by
    rw [abs_of_nonneg hpos]
    exact h.trans (zpow_le_zpow_right₀ one_le_two (by norm_num))) with ⟨hfinite, hrounds⟩
  have herror := hrounds.abs_sub_le_mul
  rw [abs_of_nonneg hpos] at herror
  exact ⟨hfinite, hrounds.nonneg hpos, herror⟩

/-- The computed square of the length. -/
theorem near_dot_self (hfinite : v.Finite) (hsize : v.square ≤ 2 ^ (100 : ℤ)) :
    (v.dot v).isFinite = true ∧ 0 ≤ value (v.dot v) ∧
      |value (v.dot v) - v.square| ≤ 2 ^ (-50 : ℤ) * v.square + 2 ^ (-1070 : ℤ) := by
  rcases v.sq_le_square with ⟨hx, hy, hz⟩
  rcases near_mul_self hfinite.1 (hx.trans hsize) with ⟨hfx, hpx, hex⟩
  rcases near_mul_self hfinite.2.1 (hy.trans hsize) with ⟨hfy, hpy, hey⟩
  rcases near_mul_self hfinite.2.2 (hz.trans hsize) with ⟨hfz, hpz, hez⟩
  have hleast : 32 * (2 : ℝ) ^ (-1075 : ℤ) = 2 ^ (-1070 : ℤ) := by
    rw [show (32 : ℝ) = 2 ^ (5 : ℤ) by norm_num, ← zpow_add₀ (two_ne_zero' ℝ)]
    norm_num
  have htiny : (2 : ℝ) ^ (-1075 : ℤ) ≤ 1 := zpow_le_one_of_nonpos₀ one_le_two (by norm_num)
  have hzero : (0 : ℝ) ≤ 2 ^ (-1075 : ℤ) := by positivity
  have hsquares : value v.x ^ 2 + value v.y ^ 2 + value v.z ^ 2 = v.square := rfl
  have hposx := sq_nonneg (value v.x)
  have hposy := sq_nonneg (value v.y)
  have hposz := sq_nonneg (value v.z)
  rw [← hleast]
  -- The smallest number is only a name from here on, so that nothing works its power out.
  obtain ⟨least, hdef⟩ : ∃ least : ℝ, (2 : ℝ) ^ (-1075 : ℤ) = least := ⟨_, rfl⟩
  rw [hdef] at hex hey hez htiny hzero ⊢
  norm_num at hex hey hez hsize ⊢
  have hex' := abs_le.mp hex
  have hey' := abs_le.mp hey
  have hez' := abs_le.mp hez
  rcases near_add hfx hfy hpx hpy (by norm_num; linarith) with ⟨hfs, hps, hes⟩
  rw [hdef] at hes
  norm_num at hes
  have hes' := abs_le.mp hes
  rcases near_add hfs hfz hps hpz (by norm_num; linarith) with ⟨hfd, hpd, hed⟩
  refine ⟨hfd, hpd, ?_⟩
  rw [hdef] at hed
  norm_num at hed
  have hed' := abs_le.mp hed
  change |value (v.x * v.x + v.y * v.y + v.z * v.z) - v.square| ≤ _
  rw [abs_le]
  constructor <;> linarith

/-- The square of a rounded root. -/
theorem abs_sq_sub_mul_self_le {m root least : ℝ} (hroot : 0 ≤ root) (hsize : root ≤ 2 ^ (51 : ℤ))
    (hleast : 0 ≤ least) (hone : least ≤ 1) (h : |m - root| ≤ 2 ^ (-53 : ℤ) * root + least) :
    |m ^ 2 - root * root| ≤ 2 ^ (-51 : ℤ) * (root * root) + 2 ^ (53 : ℤ) * least := by
  -- It differs from what it is the root of by the error times twice the root.
  have hsplit : |m ^ 2 - root * root| = |m - root| * |m + root| := by
    rw [← abs_mul]
    congr 1
    ring
  have hsum : |m + root| ≤ 3 * root + least := by
    have htriangle := abs_add_le (m - root) (2 * root)
    rw [show m - root + 2 * root = m + root by ring,
      abs_of_nonneg (by linarith : 0 ≤ 2 * root)] at htriangle
    have hunit : (2 : ℝ) ^ (-53 : ℤ) ≤ 1 := zpow_le_one_of_nonpos₀ one_le_two (by norm_num)
    have hshare := mul_le_mul_of_nonneg_right hunit hroot
    linarith
  have hproduct := mul_le_mul h hsum (abs_nonneg _) (by positivity)
  have hterms : (2 ^ (-53 : ℤ) * root + least) * (3 * root + least) =
      3 * 2 ^ (-53 : ℤ) * (root * root) + (3 + 2 ^ (-53 : ℤ)) * (least * root) + least * least := by
    ring
  have hcross : least * root ≤ least * 2 ^ (51 : ℤ) := mul_le_mul_of_nonneg_left hsize hleast
  have hsquare : least * least ≤ least * 1 := mul_le_mul_of_nonneg_left hone hleast
  have hpos := mul_nonneg hroot hroot
  rw [hterms] at hproduct
  rw [hsplit]
  norm_num at hproduct hcross ⊢
  linarith

/-- The computed length. Its square is that of the length up to a small part, and up to something
    that only matters where the squares are too small to be told from zero. -/
theorem near_magnitude (hfinite : v.Finite) (hsize : v.square ≤ 2 ^ (100 : ℤ)) :
    v.magnitude.isFinite = true ∧ 0 ≤ value v.magnitude ∧
      |value v.magnitude ^ 2 - v.square| ≤ 2 ^ (-48 : ℤ) * v.square + 2 ^ (-1000 : ℤ) := by
  rcases near_dot_self hfinite hsize with ⟨hfd, hpd, hed⟩
  have hpos := v.square_nonneg
  have hdot := abs_le.mp hed
  have hrootpos := Real.sqrt_nonneg (value (v.dot v))
  -- The smallest errors are all alike.
  have htiny : (2 : ℝ) ^ (-1070 : ℤ) ≤ 1 := zpow_le_one_of_nonpos₀ one_le_two (by norm_num)
  have hleast : (2 : ℝ) ^ (-1075 : ℤ) ≤ 2 ^ (-1070 : ℤ) :=
    zpow_le_zpow_right₀ one_le_two (by norm_num)
  have hleast' : 2 ^ (60 : ℤ) * 2 ^ (-1070 : ℤ) ≤ (2 : ℝ) ^ (-1000 : ℤ) := by
    rw [← zpow_add₀ (two_ne_zero' ℝ)]
    exact zpow_le_zpow_right₀ one_le_two (by norm_num)
  have hzero : (0 : ℝ) ≤ 2 ^ (-1070 : ℤ) := by positivity
  have hrootsize : √(value (v.dot v)) ≤ 2 ^ (51 : ℤ) := by
    rw [Real.sqrt_le_iff]
    refine ⟨by positivity, ?_⟩
    generalize (2 : ℝ) ^ (-1070 : ℤ) = least at *
    norm_num at hsize hdot ⊢
    linarith
  rcases rounds_sqrt hfd hpd (hrootsize.trans (zpow_le_zpow_right₀ one_le_two (by norm_num))) with
    ⟨hfm, hrounds⟩
  have herror := hrounds.abs_sub_le_mul
  rw [abs_of_nonneg hrootpos] at herror
  refine ⟨hfm, hrounds.nonneg hrootpos, ?_⟩
  have hsquare := abs_sq_sub_mul_self_le hrootpos hrootsize hzero htiny
    (herror.trans (add_le_add_right hleast _))
  rw [Real.mul_self_sqrt hpd] at hsquare
  change |value (v.dot v).sqrt ^ 2 - v.square| ≤ _
  have htriangle := abs_sub_le (value (v.dot v).sqrt ^ 2) (value (v.dot v)) v.square
  refine le_trans ?_ (add_le_add_right hleast' _)
  generalize (2 : ℝ) ^ (-1070 : ℤ) = least at *
  norm_num at hsquare hed hdot ⊢
  linarith

theorem length_real_pos (hlow : 2 ^ (-100 : ℤ) ≤ v.square) : 0 < length v.real := by
  refine lt_of_le_of_ne (length_nonneg _) fun hzero => ?_
  rw [← length_real_sq, ← hzero, zero_pow two_ne_zero] at hlow
  exact absurd hlow (not_le.mpr (by positivity))

/-- A vector that is neither tiny nor huge has a length that is a positive number. -/
theorem magnitude_pos (hfinite : v.Finite) (hlow : 2 ^ (-100 : ℤ) ≤ v.square)
    (hsize : v.square ≤ 2 ^ (100 : ℤ)) : 0 < value v.magnitude ∧
      |value v.magnitude - length v.real| ≤ 2 ^ (-47 : ℤ) * length v.real := by
  rcases near_magnitude hfinite hsize with ⟨_, hpos, hnear⟩
  have hlength := length_real_pos hlow
  -- A vector of this length is far above what underflows.
  have hleast : (2 : ℝ) ^ (-1000 : ℤ) ≤ 2 ^ (-48 : ℤ) * 2 ^ (-100 : ℤ) := by
    rw [← zpow_add₀ (two_ne_zero' ℝ)]
    exact zpow_le_zpow_right₀ one_le_two (by norm_num)
  have hshare := mul_le_mul_of_nonneg_left hlow (by positivity : (0 : ℝ) ≤ 2 ^ (-48 : ℤ))
  have hsquare : |value v.magnitude ^ 2 - v.square| ≤ 2 ^ (-47 : ℤ) * v.square := by
    have hdouble : (2 : ℝ) ^ (-47 : ℤ) = 2 * 2 ^ (-48 : ℤ) := by norm_num
    rw [hdouble]
    linarith
  -- The difference of squares has the sum of the lengths as a factor.
  have hnear' : |value v.magnitude - length v.real| ≤ 2 ^ (-47 : ℤ) * length v.real := by
    have hshare' := mul_le_mul_of_nonneg_left
      (by linarith : length v.real ≤ value v.magnitude + length v.real)
      (abs_nonneg (value v.magnitude - length v.real))
    rw [← length_real_sq, sq_sub_sq, abs_mul,
      abs_of_pos (by linarith : 0 < value v.magnitude + length v.real)] at hsquare
    refine le_of_mul_le_mul_right ?_ hlength
    linarith
  refine ⟨?_, hnear'⟩
  have hlow' := (abs_le.mp hnear').1
  norm_num at hlow'
  linarith

theorem isNull_eq_false (hfinite : v.Finite) (hlow : 2 ^ (-100 : ℤ) ≤ v.square)
    (hsize : v.square ≤ 2 ^ (100 : ℤ)) : v.isNull = false := by
  rw [isNull, ← Bool.not_eq_true, beq_iff_value_eq (near_magnitude hfinite hsize).1 rfl, value_zero]
  exact (magnitude_pos hfinite hlow hsize).1.ne'

/-- All components are finite, and the length is one up to an error in its square. -/
structure Normed (v : Vec3) (ε : ℝ) : Prop where
  /-- The components have values. -/
  finite : v.Finite
  /-- Their squares add up to one, up to the error. -/
  near : |v.square - 1| ≤ ε

namespace Normed

variable {ε δ : ℝ}

theorem weaken (h : v.Normed ε) (hε : ε ≤ δ) : v.Normed δ := ⟨h.finite, h.near.trans hε⟩

theorem near_real (h : v.Normed ε) : |v.real ⬝ᵥ v.real - 1| ≤ ε := by
  rw [← square_eq]
  exact h.near

/-- The length itself is as near to one as its square, at least. -/
theorem abs_length_sub_one_le (h : v.Normed ε) : |length v.real - 1| ≤ ε := by
  have hlength := length_nonneg v.real
  have hnear := h.near
  rw [← length_real_sq, ← one_pow 2, sq_sub_sq, abs_mul,
    abs_of_pos (by linarith : 0 < length v.real + 1)] at hnear
  have hshare := mul_le_mul_of_nonneg_right (by linarith : 1 ≤ length v.real + 1)
    (abs_nonneg (length v.real - 1))
  linarith

theorem length_le (h : v.Normed ε) : length v.real ≤ 1 + ε := by
  linarith [(abs_le.mp h.abs_length_sub_one_le).2]

theorem abs_le_two (h : v.Normed ε) (hε : ε ≤ 1) : v.Inside (2 ^ (1 : ℤ)) := by
  refine inside_iff.mpr ⟨h.finite, fun i => (abs_apply_le_length v.real i).trans ?_⟩
  have hlength := h.length_le
  norm_num
  linarith

theorem square_mem (h : v.Normed ε) : 1 - ε ≤ v.square ∧ v.square ≤ 1 + ε := by
  have hnear := abs_le.mp h.near
  constructor <;> linarith

end Normed

/-- What is rounded to a number that is not too large is not too large itself. -/
theorem le_of_rounds {r w k : ℝ} (hr : 0 ≤ r) (h : Rounds r w) (hw : w ≤ k) (hk : 1 ≤ k) :
    r ≤ k + k / 2 := by
  have herror := neg_le_of_abs_le h.abs_sub_le_mul
  have htiny : (2 : ℝ) ^ (-1075 : ℤ) ≤ 2 ^ (-53 : ℤ) := zpow_le_zpow_right₀ one_le_two (by norm_num)
  rw [abs_of_nonneg hr] at herror
  generalize (2 : ℝ) ^ (-1075 : ℤ) = least at *
  norm_num at herror htiny
  linarith

/-- Nothing in a vector of computed length one is larger than a few units, since the root is not. -/
theorem square_le_of_magnitude (hfm : v.magnitude.isFinite = true) (hone : value v.magnitude = 1) :
    v.square ≤ 2 ^ (6 : ℤ) := by
  have hfd : (v.dot v).isFinite = true := isFinite_of_sqrt hfm
  rcases isFinite_of_add hfd with ⟨hfs, hfz⟩
  rcases isFinite_of_add hfs with ⟨hfx, hfy⟩
  have hex := rounds_mul_of_isFinite hfx
  have hey := rounds_mul_of_isFinite hfy
  have hez := rounds_mul_of_isFinite hfz
  have hpx := mul_self_nonneg (value v.x)
  have hpy := mul_self_nonneg (value v.y)
  have hpz := mul_self_nonneg (value v.z)
  have hes := rounds_add_of_isFinite hfs
  have hed := rounds_add_of_isFinite hfd
  have hps := add_nonneg (hex.nonneg hpx) (hey.nonneg hpy)
  have hpd := add_nonneg (hes.nonneg hps) (hez.nonneg hpz)
  have hroot : Rounds (√(value (v.dot v))) (value v.magnitude) :=
    rounds_of_isFinite (parts_sqrt (v.dot v))
      (rounds_sqrt_parts ((isFinite_eq_parts _).symm.trans hfd) (hed.nonneg hpd)) hfm
  have hmul := Real.mul_self_sqrt (hed.nonneg hpd)
  change √(value (v.dot v)) * √(value (v.dot v)) = value (v.dot v) at hmul
  have hrootpos := Real.sqrt_nonneg (value (v.dot v))
  rw [hone] at hroot
  -- From the root to what it is taken of, and from every sum to what is added.
  have hrootle := le_of_rounds hrootpos hroot le_rfl le_rfl
  have hdotle : value (v.dot v) ≤ 3 := by nlinarith
  have hsumle := le_of_rounds hpd hed hdotle (by norm_num)
  have hsum'le := le_of_rounds hps hes (k := 5) (by linarith [hez.nonneg hpz]) (by norm_num)
  have hx := le_of_rounds hpx hex (k := 8) (by linarith [hey.nonneg hpy]) (by norm_num)
  have hy := le_of_rounds hpy hey (k := 8) (by linarith [hex.nonneg hpx]) (by norm_num)
  have hz := le_of_rounds hpz hez (k := 8) (by linarith [hes.nonneg hps]) (by norm_num)
  rw [square, sq, sq, sq]
  norm_num
  linarith

/-- A computed length of one means a length of one. The root has been rounded to one, and the
    components are thereby known to be bounded, so that nothing was lost to overflow. -/
theorem normed_of_magnitude (hfinite : v.Finite) (h : (v.magnitude == 1.0) = true) :
    v.Normed (2 ^ (-46 : ℤ)) := by
  have hfm : v.magnitude.isFinite = true := isFinite_of_beq rfl h
  have hone : value v.magnitude = 1 := by
    rw [beq_iff_value_eq hfm rfl, value_one] at h
    exact h
  have hsize := square_le_of_magnitude hfm hone
  have hnear := abs_le.mp (near_magnitude hfinite (hsize.trans (by norm_num))).2.2
  have hleast : (2 : ℝ) ^ (-1000 : ℤ) ≤ 2 ^ (-53 : ℤ) :=
    zpow_le_zpow_right₀ one_le_two (by norm_num)
  rw [hone] at hnear
  refine ⟨hfinite, ?_⟩
  rw [abs_le]
  generalize (2 : ℝ) ^ (-1000 : ℤ) = least at *
  norm_num at hnear hleast ⊢
  constructor <;> linarith

/-- Numbers of moderate size that are near to each other have squares that are. -/
theorem abs_sq_sub_sq_le {s t bound ε : ℝ} (ht : |t| ≤ bound) (h : |s - t| ≤ ε) :
    |s ^ 2 - t ^ 2| ≤ ε * (2 * bound + ε) := by
  have hsum : |s + t| ≤ 2 * bound + ε := by
    have htriangle := abs_add_le (s - t) (2 * t)
    rw [show s - t + 2 * t = s + t by ring, abs_mul, abs_two] at htriangle
    linarith
  calc |s ^ 2 - t ^ 2| = |s - t| * |s + t| := by rw [← abs_mul]; congr 1; ring
    _ ≤ ε * (2 * bound + ε) :=
      mul_le_mul h hsum (abs_nonneg _) ((abs_nonneg _).trans h)

/-- What points in a direction, as exactly as a quotient does, has length one. -/
theorem normed_of_near {p : Vec3} {x : Fin 3 → ℝ} (hfinite : p.Finite) (hpos : 0 < length x)
    (h : length (length x • p.real - x) ≤ 2 ^ (-46 : ℤ) * length x) : p.Normed (2 ^ (-44 : ℤ)) := by
  have hlength := (abs_length_sub_le _ _).trans h
  rw [length_smul, abs_of_pos hpos, ← mul_sub_one, abs_mul, abs_of_pos hpos, mul_comm] at hlength
  have hone := le_of_mul_le_mul_right hlength hpos
  have hsquare := abs_sq_sub_sq_le (by rw [abs_one]) hone
  rw [one_pow, length_real_sq] at hsquare
  exact ⟨hfinite, hsquare.trans (by norm_num)⟩

/-- A component divided by the length. It does not exceed two, so that it is rounded finely. -/
theorem near_div_length {t m : Float} {r : ℝ} (ht : t.isFinite = true) (hm : m.isFinite = true)
    (hle : |value t| ≤ r) (hpos : 0 < value m) (hr : r ≤ 2 * value m) :
    (t / m).isFinite = true ∧ |value (t / m) - (value m)⁻¹ * value t| ≤ 2 ^ (-52 : ℤ) := by
  have htwo : |value t / value m| ≤ 2 ^ (1 : ℤ) := by
    rw [abs_div, abs_of_pos hpos, div_le_iff₀ hpos]
    norm_num
    linarith
  rcases rounds_div ht hm hpos.ne' (htwo.trans (zpow_le_zpow_right₀ one_le_two (by norm_num))) with
    ⟨hfinite, hrounds⟩
  refine ⟨hfinite, ?_⟩
  rw [inv_mul_eq_div]
  exact hrounds.abs_sub_le (by norm_num) htwo

/-- What has been divided by a length that is almost right points in the right direction. -/
theorem length_smul_sub_le_of_divided {x p : Fin 3 → ℝ} {m : ℝ} (hpos : 0 < m)
    (hnear : |m - length x| ≤ 2 ^ (-47 : ℤ) * length x) (h : length (p - m⁻¹ • x) ≤ 2 ^ (-51 : ℤ)) :
    length (length x • p - x) ≤ 2 ^ (-46 : ℤ) * length x := by
  have hm := abs_le.mp hnear
  have hlength := length_nonneg x
  have hsize := length_add_le (p - m⁻¹ • x) (m⁻¹ • x)
  rw [sub_add_cancel, length_smul, abs_of_pos (inv_pos.mpr hpos)] at hsize
  have hone : m⁻¹ * length x ≤ 17 / 16 := by
    rw [inv_mul_le_iff₀ hpos]
    norm_num at hm ⊢
    linarith
  have hp : length p ≤ 9 / 8 := by
    norm_num at h
    linarith
  -- What the length is off, and what the division is off.
  have hsplit : length x • p - x = (length x - m) • p + m • (p - m⁻¹ • x) := by
    match_scalars
    all_goals field_simp
    ring
  rw [hsplit]
  refine (length_add_le _ _).trans ?_
  rw [length_smul, length_smul, abs_of_pos hpos, abs_sub_comm]
  have hfirst := mul_le_mul hnear hp (length_nonneg p) (by positivity)
  have hsecond := mul_le_mul_of_nonneg_left h hpos.le
  norm_num at hfirst hsecond hm ⊢
  linarith

/-- A vector divided by its length has length one, and it points the same way, unless it is tiny or
    huge. A tiny or a huge one has a square that is not its square any more. -/
theorem normalized_near (hfinite : v.Finite) (hlow : 2 ^ (-100 : ℤ) ≤ v.square)
    (hsize : v.square ≤ 2 ^ (100 : ℤ)) : ∃ p, v.normalized = .ok p ∧ p.Normed (2 ^ (-44 : ℤ)) ∧
      length (length v.real • p.real - v.real) ≤ 2 ^ (-46 : ℤ) * length v.real := by
  have hfm := (near_magnitude hfinite hsize).1
  have hlength := length_real_pos hlow
  rcases magnitude_pos hfinite hlow hsize with ⟨hpos, hnear⟩
  have hdouble : length v.real ≤ 2 * value v.magnitude := by
    have hm := abs_le.mp hnear
    norm_num at hm
    linarith
  rcases near_div_length hfinite.1 hfm (abs_apply_le_length v.real 0) hpos hdouble with ⟨hfx, hex⟩
  rcases near_div_length hfinite.2.1 hfm (abs_apply_le_length v.real 1) hpos hdouble with ⟨hfy, hey⟩
  rcases near_div_length hfinite.2.2 hfm (abs_apply_le_length v.real 2) hpos hdouble with ⟨hfz, hez⟩
  have hfp : (v.dividedBy v.magnitude).Finite := ⟨hfx, hfy, hfz⟩
  -- The components are divided one by one, by a length that is off itself.
  have herror : length ((v.dividedBy v.magnitude).real - (value v.magnitude)⁻¹ • v.real) ≤
      2 * 2 ^ (-52 : ℤ) := by
    refine length_le_of_abs_le fun i => ?_
    fin_cases i
    · exact hex
    · exact hey
    · exact hez
  have hdirection := length_smul_sub_le_of_divided hpos hnear (herror.trans (by norm_num))
  exact ⟨v.dividedBy v.magnitude, hfp.checked, normed_of_near hfp hlength hdirection, hdirection⟩

end Vec3

end SolidModel
