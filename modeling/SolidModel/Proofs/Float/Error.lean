import SolidModel.Proofs.Float.Root

/-!
# Errors

How errors add up in a computation with floats.

A float is near a number if it is finite and differs from the number by a small part of a power of
two that the number does not exceed. Sums and products of what is near are near, and their errors
are those of the operands and that of the rounding. Stated with powers of two, this is enough to
follow a computation of fixed length to its end.

What comes out finite has been made of what is finite, so that a single look at a result tells that
nothing went wrong on the way.

## Main definitions

* `Near`: A float is a number up to a small part of a power of two.

## Theorems

* `Near.add`, `Near.sub`, `Near.mul`: Errors add up.
* `isFinite_of_add`, `isFinite_of_sub`, `isFinite_of_abs_le`: Finite results have finite operands.
* `rounds_add_of_isFinite`, `rounds_mul_of_isFinite`: Finite results are rounded.
-/

namespace SolidModel

open Float.Model UnpackedFloat

/-- A float is a number up to a part of a power of two that the number does not exceed. -/
structure Near (x : Float) (r : ℝ) (n : ℤ) (δ : ℝ) : Prop where
  /-- The float has a value. -/
  finite : x.isFinite = true
  /-- The value misses the number by no more than the given part of the power. -/
  error : |value x - r| ≤ δ * 2 ^ n
  /-- The number does not exceed the power. -/
  bound : |r| ≤ 2 ^ n

namespace Near

variable {x y : Float} {r s : ℝ} {n m : ℤ} {δ ε : ℝ}

theorem self (hx : x.isFinite = true) (h : |value x| ≤ 2 ^ n) : Near x (value x) n 0 where
  finite := hx
  error := by rw [sub_self, abs_zero, zero_mul]
  bound := h

theorem nonneg (h : Near x r n δ) : 0 ≤ δ :=
  nonneg_of_mul_nonneg_left ((abs_nonneg _).trans h.error) (zpow_pos two_pos n)

theorem weaken (h : Near x r n δ) (hδ : δ ≤ ε) : Near x r n ε where
  finite := h.finite
  error := h.error.trans (mul_le_mul_of_nonneg_right hδ (by positivity))
  bound := h.bound

/-- The float does not exceed the power of two by more than the error. -/
theorem abs_value_le (h : Near x r n δ) : |value x| ≤ (1 + δ) * 2 ^ n := by
  have htriangle := abs_sub_abs_le_abs_sub (value x) r
  linarith [h.error, h.bound]

theorem raise (h : Near x r n δ) (hδ : 0 ≤ δ) (hnm : n ≤ m) : Near x r m δ where
  finite := h.finite
  error := h.error.trans
    (mul_le_mul_of_nonneg_left (zpow_le_zpow_right₀ one_le_two hnm) hδ)
  bound := h.bound.trans (zpow_le_zpow_right₀ one_le_two hnm)

/-- A rounded result is near what its operands are near to. -/
theorem of_rounds {z : Float} {t : ℝ} (hz : z.isFinite = true) (hrounds : Rounds t (value z))
    (ht : |t - r| ≤ δ * 2 ^ n) (hr : |r| ≤ 2 ^ n) (hn : -1022 ≤ n) (hδ : δ ≤ 1) :
    Near z r n (δ + 2 ^ (-52 : ℤ)) where
  finite := hz
  error := by
    have hsize : |t| ≤ 2 ^ (n + 1) := by
      have htriangle := abs_sub_abs_le_abs_sub t r
      have hshare := mul_le_mul_of_nonneg_right hδ (by positivity : (0 : ℝ) ≤ 2 ^ n)
      rw [zpow_add_one₀ two_ne_zero]
      linarith
    have hround := hrounds.abs_sub_le (by omega) hsize
    have hunit : (2 : ℝ) ^ (n + 1 - 53) = 2 ^ (-52 : ℤ) * 2 ^ n := by
      rw [← zpow_add₀ two_ne_zero]
      congr 1
      omega
    have htriangle := abs_sub_le (value z) t r
    rw [hunit] at hround
    linarith
  bound := hr

/-- Powers of two that a computation can have to do with. -/
theorem zpow_le_max (hn : n ≤ 1000) {t : ℝ} (ht : |t| ≤ 8 * 2 ^ n) : |t| ≤ 2 ^ (1023 : ℤ) := by
  have height : (8 : ℝ) * 2 ^ n = 2 ^ (n + 3) := by
    rw [zpow_add₀ two_ne_zero]
    norm_num
    ring
  rw [height] at ht
  exact ht.trans (zpow_le_zpow_right₀ one_le_two (by omega))

theorem add (hx : Near x r n δ) (hy : Near y s n ε) (hlow : -1000 ≤ n) (hhigh : n ≤ 1000)
    (hδ : δ ≤ 1) (hε : ε ≤ 1) : Near (x + y) (r + s) (n + 1) ((δ + ε) / 2 + 2 ^ (-52 : ℤ)) := by
  have hunit : (0 : ℝ) < 2 ^ n := zpow_pos two_pos n
  have hdouble : (2 : ℝ) ^ (n + 1) = 2 * 2 ^ n := by
    rw [zpow_add_one₀ two_ne_zero]
    ring
  have herror : |value x + value y - (r + s)| ≤ (δ + ε) / 2 * 2 ^ (n + 1) := by
    have htriangle := abs_add_le (value x - r) (value y - s)
    rw [show value x + value y - (r + s) = value x - r + (value y - s) by ring, hdouble]
    linarith [hx.error, hy.error]
  have hsize : |value x + value y| ≤ 8 * 2 ^ n := by
    have htriangle := abs_add_le (value x) (value y)
    have hshare := mul_le_mul_of_nonneg_right hδ hunit.le
    have hshare' := mul_le_mul_of_nonneg_right hε hunit.le
    linarith [hx.abs_value_le, hy.abs_value_le]
  rcases rounds_add hx.finite hy.finite (zpow_le_max hhigh hsize) with ⟨hfinite, hrounds⟩
  refine of_rounds hfinite hrounds herror ?_ (by omega) (by linarith)
  have htriangle := abs_add_le r s
  rw [hdouble]
  linarith [hx.bound, hy.bound]

theorem sub (hx : Near x r n δ) (hy : Near y s n ε) (hlow : -1000 ≤ n) (hhigh : n ≤ 1000)
    (hδ : δ ≤ 1) (hε : ε ≤ 1) : Near (x - y) (r - s) (n + 1) ((δ + ε) / 2 + 2 ^ (-52 : ℤ)) := by
  have hunit : (0 : ℝ) < 2 ^ n := zpow_pos two_pos n
  have hdouble : (2 : ℝ) ^ (n + 1) = 2 * 2 ^ n := by
    rw [zpow_add_one₀ two_ne_zero]
    ring
  have herror : |value x - value y - (r - s)| ≤ (δ + ε) / 2 * 2 ^ (n + 1) := by
    have htriangle := abs_sub (value x - r) (value y - s)
    rw [show value x - value y - (r - s) = value x - r - (value y - s) by ring, hdouble]
    linarith [hx.error, hy.error]
  have hsize : |value x - value y| ≤ 8 * 2 ^ n := by
    have htriangle := abs_sub (value x) (value y)
    have hshare := mul_le_mul_of_nonneg_right hδ hunit.le
    have hshare' := mul_le_mul_of_nonneg_right hε hunit.le
    linarith [hx.abs_value_le, hy.abs_value_le]
  rcases rounds_sub hx.finite hy.finite (zpow_le_max hhigh hsize) with ⟨hfinite, hrounds⟩
  refine of_rounds hfinite hrounds herror ?_ (by omega) (by linarith)
  have htriangle := abs_sub r s
  rw [hdouble]
  linarith [hx.bound, hy.bound]

theorem mul (hx : Near x r n δ) (hy : Near y s m ε) (hlow : -1000 ≤ n + m) (hhigh : n + m ≤ 1000)
    (hδ : δ ≤ 1 / 4) (hε : ε ≤ 1 / 4) :
    Near (x * y) (r * s) (n + m) (δ + ε + δ * ε + 2 ^ (-52 : ℤ)) := by
  have hunit : (0 : ℝ) < 2 ^ n := zpow_pos two_pos n
  have hunit' : (0 : ℝ) < 2 ^ m := zpow_pos two_pos m
  have hδ' := hx.nonneg
  have hε' := hy.nonneg
  have hpower : (2 : ℝ) ^ (n + m) = 2 ^ n * 2 ^ m := zpow_add₀ two_ne_zero n m
  have hsizes := mul_le_mul hx.abs_value_le hy.abs_value_le (abs_nonneg _) (by positivity)
  -- The factors are exchanged one at a time.
  have herror : |value x * value y - r * s| ≤ (δ + ε + δ * ε) * 2 ^ (n + m) := by
    have htriangle := abs_add_le (value x * (value y - s)) (s * (value x - r))
    have hfirst := mul_le_mul hx.abs_value_le hy.error (abs_nonneg _) (by positivity)
    have hsecond := mul_le_mul hy.bound hx.error (abs_nonneg _) (by positivity)
    rw [abs_mul, abs_mul] at htriangle
    rw [show value x * value y - r * s = value x * (value y - s) + s * (value x - r) by ring,
      hpower]
    linarith
  have hsize : |value x * value y| ≤ 8 * 2 ^ (n + m) := by
    have hfactor : (1 + δ) * (1 + ε) ≤ 8 := by nlinarith
    have hshare := mul_le_mul_of_nonneg_right hfactor (mul_pos hunit hunit').le
    rw [abs_mul, hpower]
    linarith
  rcases rounds_mul hx.finite hy.finite (zpow_le_max hhigh hsize) with ⟨hfinite, hrounds⟩
  refine of_rounds hfinite hrounds herror ?_ (by omega) (by nlinarith)
  rw [abs_mul, hpower]
  exact mul_le_mul hx.bound hy.bound (abs_nonneg _) hunit.le

end Near

section Finite

variable {x y : Float}

theorem isFinite_of_stored {u : UnpackedFloat} (h : (stored u).isFinite = true) :
    u.isFinite = true := by
  cases u with
  | notANumber => exact h
  | infinity s =>
      rw [stored_infinity] at h
      exact h
  | zero s => rfl
  | finite s m e hm => rfl

/-- A finite sum has finite summands. Once something is infinite or no number it stays so, which is
    why a result can vouch for what it was computed from. -/
theorem isFinite_of_add (h : (x + y).isFinite = true) : x.isFinite = true ∧ y.isFinite = true := by
  rw [isFinite_eq_parts, parts_add] at h
  have h := isFinite_of_stored h
  rw [isFinite_eq_parts, isFinite_eq_parts]
  cases hx : parts x <;> cases hy : parts y <;> rw [hx, hy] at h <;> first
    | exact ⟨rfl, rfl⟩
    | exact absurd h Bool.false_ne_true
    | (dsimp only [UnpackedFloat.add] at h; split at h <;> exact absurd h Bool.false_ne_true)

/-- A finite difference has finite terms. -/
theorem isFinite_of_sub (h : (x - y).isFinite = true) : x.isFinite = true ∧ y.isFinite = true := by
  rw [isFinite_eq_parts, parts_sub] at h
  have h := isFinite_of_stored h
  rw [isFinite_eq_parts, isFinite_eq_parts]
  cases hx : parts x <;> cases hy : parts y <;> rw [hx, hy] at h <;> first
    | exact ⟨rfl, rfl⟩
    | exact absurd h Bool.false_ne_true
    | (dsimp only [UnpackedFloat.sub] at h; split at h <;> exact absurd h Bool.false_ne_true)

/-- A finite product has finite factors. -/
theorem isFinite_of_mul (h : (x * y).isFinite = true) : x.isFinite = true ∧ y.isFinite = true := by
  rw [isFinite_eq_parts, parts_mul] at h
  have h := isFinite_of_stored h
  rw [isFinite_eq_parts, isFinite_eq_parts]
  cases hx : parts x <;> cases hy : parts y <;> rw [hx, hy] at h <;>
    first | exact ⟨rfl, rfl⟩ | exact absurd h Bool.false_ne_true

/-- Only a finite float has a finite root. -/
theorem isFinite_of_sqrt (h : x.sqrt.isFinite = true) : x.isFinite = true := by
  rw [isFinite_eq_parts, parts_sqrt] at h
  have h := isFinite_of_stored h
  rw [isFinite_eq_parts]
  cases hx : parts x with
  | notANumber =>
      rw [hx] at h
      exact absurd h Bool.false_ne_true
  | infinity s =>
      rw [hx] at h
      cases s <;> exact absurd h Bool.false_ne_true
  | zero s => rfl
  | finite s m e hm => rfl

/-- What equals a finite float is finite. -/
theorem isFinite_of_beq (hy : y.isFinite = true) (h : (x == y) = true) : x.isFinite = true := by
  rw [beq_eq_parts] at h
  rw [isFinite_eq_parts] at hy ⊢
  cases hx : parts x <;> cases hparts : parts y <;> rw [hx, hparts] at h <;>
    rw [hparts] at hy <;> first
    | rfl
    | exact absurd hy Bool.false_ne_true
    | exact absurd h Bool.false_ne_true
    | (rename_i s _; cases s <;> exact absurd h Bool.false_ne_true)
    | (rename_i s _ _ _ _; cases s <;> exact absurd h Bool.false_ne_true)

/-- A finite sum is rounded. Here the result is what is known to be finite, and nothing is asked of
    the size of the summands. -/
theorem rounds_add_of_isFinite (h : (x + y).isFinite = true) :
    Rounds (value x + value y) (value (x + y)) := by
  rcases isFinite_of_add h with ⟨hx, hy⟩
  exact rounds_of_isFinite (parts_add x y)
    (rounds_add_parts (canonical_parts x) (canonical_parts y) hx hy) h

/-- A finite difference is rounded. -/
theorem rounds_sub_of_isFinite (h : (x - y).isFinite = true) :
    Rounds (value x - value y) (value (x - y)) := by
  rcases isFinite_of_sub h with ⟨hx, hy⟩
  exact rounds_of_isFinite (parts_sub x y)
    (rounds_sub_parts (canonical_parts x) (canonical_parts y) hx hy) h

/-- A finite product is rounded. -/
theorem rounds_mul_of_isFinite (h : (x * y).isFinite = true) :
    Rounds (value x * value y) (value (x * y)) := by
  rcases isFinite_of_mul h with ⟨hx, hy⟩
  exact rounds_of_isFinite (parts_mul x y)
    (rounds_mul_parts (canonical_parts x) (canonical_parts y) hx hy) h

/-- What is bounded in size by a finite float is finite. -/
theorem isFinite_of_abs_le (hy : y.isFinite = true) (h : x.abs ≤ y) : x.isFinite = true := by
  rw [le_iff_parts, parts_abs,
    stored_eq_self (canonical_abs (canonical_parts x)) (fits_abs (fits_parts x))] at h
  rw [isFinite_eq_parts] at hy ⊢
  cases hx : parts x with
  | zero s => rfl
  | finite s m e hm => rfl
  | notANumber =>
      rw [hx] at h
      exact absurd h Bool.false_ne_true
  | infinity s =>
      rw [hx] at h
      cases hparts : parts y <;> rw [hparts] at h hy <;>
        first | exact absurd hy Bool.false_ne_true | exact absurd h Bool.false_ne_true

/-- To add a multiple of zero makes no difference to speak of, if the result is finite. -/
theorem add_zero_mul {base z t : Float} (hz : value z = 0) (h : (base + z * t).isFinite = true) :
    |value (base + z * t) - value base| ≤ 2 ^ (-53 : ℤ) * |value base| + 2 ^ (-1000 : ℤ) := by
  have hsmall := (rounds_mul_of_isFinite (isFinite_of_add h).2).abs_sub_le_mul
  have hsum := (rounds_add_of_isFinite h).abs_sub_le_mul
  rw [hz, zero_mul, sub_zero, abs_zero, mul_zero, zero_add] at hsmall
  -- What is left of the product is an error at the very bottom of the range.
  have hleast : 3 * (2 : ℝ) ^ (-1075 : ℤ) ≤ 2 ^ (-1000 : ℤ) := by
    have h : (4 : ℝ) * 2 ^ (-1075 : ℤ) ≤ 2 ^ (-1000 : ℤ) := by
      rw [show (4 : ℝ) = 2 ^ (2 : ℤ) by norm_num, ← zpow_add₀ (two_ne_zero' ℝ)]
      exact zpow_le_zpow_right₀ one_le_two (by norm_num)
    have hpos : (0 : ℝ) < 2 ^ (-1075 : ℤ) := by positivity
    linarith
  have htriangle := abs_add_le (value (base + z * t) - (value base + value (z * t))) (value (z * t))
  rw [show value (base + z * t) - (value base + value (z * t)) + value (z * t) =
    value (base + z * t) - value base by ring] at htriangle
  have hsize := abs_add_le (value base) (value (z * t))
  have hunit : (2 : ℝ) ^ (-53 : ℤ) ≤ 1 := zpow_le_one_of_nonpos₀ one_le_two (by norm_num)
  have hshare : (2 : ℝ) ^ (-53 : ℤ) * |value base + value (z * t)| ≤
      2 ^ (-53 : ℤ) * |value base| + |value (z * t)| := by
    have h := mul_le_mul_of_nonneg_left hsize (by positivity : (0 : ℝ) ≤ 2 ^ (-53 : ℤ))
    have h' := mul_le_mul_of_nonneg_right hunit (abs_nonneg (value (z * t)))
    rw [mul_add] at h
    linarith
  linarith

end Finite

end SolidModel
