import SolidModel.Proofs.Float.Value

/-!
# Quotients and Roots

Division and roots of floats as rounded arithmetic.

For both the dividend or the radicand gets more digits first, so that the whole part of the result
has as many as are needed. What the remainder says about the rest of the result is then all that
rounding asks for: a quotient is compared with the next half by doubling its remainder, and a root
lies in the lower half if the remainder is no larger than the root, since the square of a half is
less than one.

## Theorems

* `rounds_div`: A quotient is rounded.
* `rounds_sqrt`: A root is rounded.
-/

namespace SolidModel

open Float.Model UnpackedFloat

theorem parts_div (x y : Float) :
    parts (x / y) = stored (UnpackedFloat.div Format.binary64 (parts x) (parts y)) := rfl

theorem parts_sqrt (x : Float) :
    parts x.sqrt = stored (UnpackedFloat.sqrt Format.binary64 (parts x)) := rfl

/-- What the remainder says of a quotient. -/
theorem within_quotient (m : Nat) {n : Nat} (hn : 0 < n) :
    Within (m / n) (accuracyOfFraction (m % n) n) ((m : ℝ) / n) := by
  have hn' : (0 : ℝ) < n := Nat.cast_pos.mpr hn
  have hrest := Nat.mod_lt m hn
  have hdivision := Nat.div_add_mod m n
  generalize m / n = q at *
  generalize m % n = rest at *
  have hsplit : (m : ℝ) / n = q + rest / n := by
    rw [← hdivision]
    push_cast
    field_simp
  have hrest' : (rest : ℝ) / n < 1 := by
    rw [div_lt_one hn']
    exact_mod_cast hrest
  rw [hsplit, accuracyOfFraction]
  split
  · next hzero => rw [hzero, Nat.cast_zero, zero_div, add_zero]; rfl
  · next hne =>
      -- What is left of the division is compared with half of the divisor.
      have hpos : (0 : ℝ) < rest / n := div_pos (Nat.cast_pos.mpr (Nat.pos_of_ne_zero hne)) hn'
      rcases lt_trichotomy (2 * rest) n with h | h | h
      · rw [Nat.compare_eq_lt.mpr h]
        have hhalf : (rest : ℝ) / n < 1 / 2 := by
          rw [div_lt_div_iff₀ hn' two_pos]
          exact_mod_cast (by omega : rest * 2 < 1 * n)
        exact ⟨by linarith, by linarith⟩
      · rw [Nat.compare_eq_eq.mpr h]
        have hhalf : (rest : ℝ) / n = 1 / 2 := by
          rw [div_eq_div_iff hn'.ne' two_ne_zero]
          exact_mod_cast (by omega : rest * 2 = 1 * n)
        exact congrArg ((q : ℝ) + ·) hhalf
      · rw [Nat.compare_eq_gt.mpr h]
        have hhalf : 1 / 2 < (rest : ℝ) / n := by
          rw [div_lt_div_iff₀ two_pos hn']
          exact_mod_cast (by omega : 1 * n < rest * 2)
        exact ⟨by linarith, by linarith⟩

/-- A quotient has digits enough, once its dividend has been given more of them. -/
theorem quotient_digits {m n : Nat} (hm : 0 < m) (hn : 0 < n) {e : ℤ} {k : Nat}
    (hk : e ≤ max ((m.log2 + 1 : ℤ) - (n.log2 + 1) + (e + k) - 53) (-1074)) :
    e ≤ target (m * 2 ^ k / n) e ∧ (0 < m * 2 ^ k / n ∨ target (m * 2 ^ k / n) e = -1074) := by
  by_cases hlarge : -1074 ≤ (m.log2 + 1 : ℤ) - (n.log2 + 1) + (e + k) - 53
  · rw [max_eq_left hlarge] at hk
    obtain ⟨j, hj⟩ := Int.eq_ofNat_of_zero_le (a := (m.log2 : ℤ) + k - n.log2 - 1) (by omega)
    -- Shifted, the dividend is longer than the divisor by the digits that the quotient is to have.
    have hpower : 2 ^ j * n ≤ m * 2 ^ k := by
      calc 2 ^ j * n ≤ 2 ^ j * 2 ^ (n.log2 + 1) :=
            Nat.mul_le_mul_left _ (Nat.le_of_lt Nat.lt_log2_self)
        _ = 2 ^ m.log2 * 2 ^ k := by
          rw [← pow_add, ← pow_add]
          congr 1
          omega
        _ ≤ m * 2 ^ k := Nat.mul_le_mul_right _ (Nat.log2_self_le hm.ne')
    have hlow : 2 ^ j ≤ m * 2 ^ k / n := (Nat.le_div_iff_mul_le hn).mpr hpower
    have hpos : 0 < m * 2 ^ k / n := Nat.lt_of_lt_of_le (Nat.two_pow_pos j) hlow
    have hlog := (Nat.le_log2 hpos.ne').mpr hlow
    refine ⟨?_, Or.inl hpos⟩
    unfold target
    omega
  · rw [max_eq_right (by omega)] at hk
    refine ⟨hk.trans (le_max_right _ _), ?_⟩
    rcases Nat.eq_zero_or_pos (m * 2 ^ k / n) with hzero | hpos
    · refine Or.inr ?_
      rw [hzero, target, Nat.log2_zero]
      omega
    · exact Or.inl hpos

theorem signFactor_div (s t : Sign) : signFactor s / signFactor t = signFactor (s / t) := by
  cases s with
  | positive =>
      cases t with
      | positive => exact div_one _
      | negative =>
          change (1 : ℝ) / -1 = -1
          norm_num
  | negative =>
      cases t with
      | positive => exact div_one _
      | negative =>
          change (-1 : ℝ) / -1 = 1
          norm_num

/-- The exact quotient, with the dividend brought to some exponent. -/
theorem valueOf_div_valueOf {s t : Sign} {m n : Nat} {e f e' : ℤ} (hm : 0 < m) (hn : 0 < n) {k : ℕ}
    (hsplit : e' + k = e - f) : valueOf (.finite s m e hm) / valueOf (.finite t n f hn) =
      signFactor (s / t) * (((m * 2 ^ k : ℕ) : ℝ) / n * 2 ^ e') := by
  have hn' : (n : ℝ) ≠ 0 := Nat.cast_ne_zero.mpr hn.ne'
  have hpower : (2 : ℝ) ^ e = 2 ^ k * 2 ^ e' * 2 ^ f := by
    rw [← zpow_natCast, ← zpow_add₀ (two_ne_zero' ℝ), ← zpow_add₀ (two_ne_zero' ℝ)]
    congr 1
    omega
  have hsign : signFactor s / signFactor t = signFactor (s / t) := signFactor_div s t
  rw [valueOf, valueOf, mul_div_mul_comm, hsign, hpower]
  push_cast
  field_simp

/-- A quotient taken apart. -/
theorem rounds_div_parts {u v : UnpackedFloat} (hu : Canonical u) (hv : Canonical v)
    (hfu : u.isFinite = true) (hfv : v.isFinite = true) (hne : valueOf v ≠ 0) :
    Canonical (UnpackedFloat.div Format.binary64 u v) ∧
      (UnpackedFloat.div Format.binary64 u v).isFinite = true ∧
      Rounds (valueOf u / valueOf v) (valueOf (UnpackedFloat.div Format.binary64 u v)) := by
  cases v with
  | notANumber => exact absurd hfv Bool.false_ne_true
  | infinity t => exact absurd hfv Bool.false_ne_true
  | zero t => exact absurd rfl hne
  | finite t n f hn =>
      cases u with
      | notANumber => exact absurd hfu Bool.false_ne_true
      | infinity s => exact absurd hfu Bool.false_ne_true
      | zero s =>
          rw [show valueOf (.zero s) = 0 from rfl, zero_div]
          exact ⟨trivial, rfl, rounds_valueOf (u := .zero (s / t)) trivial⟩
      | finite s m e hm =>
          -- The dividend is given digits until the quotient has enough of them.
          obtain ⟨e', he'⟩ : ∃ e' : ℤ, min (e - f)
              (Format.binary64.targetExponent (totalExponent m e - totalExponent n f)) = e' :=
            ⟨_, rfl⟩
          obtain ⟨k, hk⟩ : ∃ k : ℕ, (e - f - e').toNat = k := ⟨_, rfl⟩
          have hdiv : UnpackedFloat.div Format.binary64 (.finite s m e hm) (.finite t n f hn) =
              roundWithAccuracy Format.binary64 (s / t) (m * 2 ^ k / n) e'
                (accuracyOfFraction (m * 2 ^ k % n) n) := by
            rw [← hk, ← he', ← Nat.shiftLeft_eq]
            rfl
          have hsplit : e' + (k : ℤ) = e - f := by omega
          have hdigits := quotient_digits hm hn (e := e') (k := k) (by
            rw [hsplit]
            unfold totalExponent at he'
            rw [targetExponent_eq] at he'
            omega)
          rw [hdiv, valueOf_div_valueOf hm hn hsplit]
          exact rounds_roundWithAccuracy (s / t) (within_quotient _ hn) hdigits.1 hdigits.2

/-- A quotient is rounded. It is computed by a division of whole numbers that leaves a remainder,
    and whether there is one is all that rounding needs to know beyond the digits. -/
theorem rounds_div {x y : Float} (hx : x.isFinite = true) (hy : y.isFinite = true)
    (hne : value y ≠ 0) (h : |value x / value y| ≤ 2 ^ (1023 : ℤ)) :
    (x / y).isFinite = true ∧ Rounds (value x / value y) (value (x / y)) :=
  rounds_of_parts (parts_div x y)
    (rounds_div_parts (canonical_parts x) (canonical_parts y) hx hy hne) h

/-- What the remainder says of a root. The root of a whole number is never halfway between two. -/
theorem within_root (m : Nat) :
    Within m.sqrt (if m - m.sqrt * m.sqrt = 0 then .exact
      else .inexact (if m - m.sqrt * m.sqrt ≤ m.sqrt then .lt else .gt)) (√(m : ℝ)) := by
  have hle := Nat.sqrt_le m
  have hlt := Nat.lt_succ_sqrt m
  generalize m.sqrt = root at *
  have hroot : (0 : ℝ) ≤ root := Nat.cast_nonneg root
  split
  · next hzero =>
      have heq : m = root * root := by omega
      change √(m : ℝ) = root
      rw [heq, Nat.cast_mul, Real.sqrt_mul_self hroot]
  · next hne =>
      have hstrict : (root : ℝ) < √(m : ℝ) := by
        refine Real.lt_sqrt_of_sq_lt ?_
        exact_mod_cast (by rw [sq]; omega : root ^ 2 < m)
      -- The square of the middle is a quarter away from every number, so that it is never met.
      split
      · next hhalf =>
          refine ⟨hstrict, ?_⟩
          rw [Real.sqrt_lt' (by linarith)]
          have h : (m : ℝ) ≤ root * root + root := by
            exact_mod_cast (by omega : m ≤ root * root + root)
          nlinarith
      · next hhalf =>
          constructor
          · refine Real.lt_sqrt_of_sq_lt ?_
            have h : (root : ℝ) * root + root + 1 ≤ m := by
              exact_mod_cast (by omega : root * root + root + 1 ≤ m)
            nlinarith
          · rw [Real.sqrt_lt' (by linarith)]
            have h : (m : ℝ) < (root + 1) * (root + 1) := by exact_mod_cast hlt
            nlinarith

/-- A root has digits enough, once its radicand has been given more of them. -/
theorem root_digits {m : Nat} (hm : 0 < m) {e : ℤ} {k : Nat}
    (hk : e ≤ max (((m.log2 + 1 : ℤ) + (2 * e + k) + 1) / 2 - 53) (-1074)) :
    e ≤ target (m * 2 ^ k).sqrt e ∧ (0 < (m * 2 ^ k).sqrt ∨ target (m * 2 ^ k).sqrt e = -1074) := by
  have hpos : 0 < (m * 2 ^ k).sqrt := Nat.sqrt_pos.mpr (by positivity)
  refine ⟨?_, Or.inl hpos⟩
  by_cases hlarge : -1074 ≤ ((m.log2 + 1 : ℤ) + (2 * e + k) + 1) / 2 - 53
  · rw [max_eq_left hlarge] at hk
    -- The root has half as many digits as the radicand.
    obtain ⟨j, hj⟩ := Int.eq_ofNat_of_zero_le (a := ((m.log2 : ℤ) + k) / 2) (by omega)
    have hpower : 2 ^ j * 2 ^ j ≤ m * 2 ^ k := by
      calc 2 ^ j * 2 ^ j = 2 ^ (j + j) := (pow_add 2 j j).symm
        _ ≤ 2 ^ (m.log2 + k) := Nat.pow_le_pow_right two_pos (by omega)
        _ = 2 ^ m.log2 * 2 ^ k := pow_add 2 _ _
        _ ≤ m * 2 ^ k := Nat.mul_le_mul_right _ (Nat.log2_self_le hm.ne')
    have hlow : 2 ^ j ≤ (m * 2 ^ k).sqrt := Nat.le_sqrt.mpr hpower
    have hlog := (Nat.le_log2 hpos.ne').mpr hlow
    unfold target
    omega
  · rw [max_eq_right (by omega)] at hk
    exact hk.trans (le_max_right _ _)

/-- The exact root, with the number brought to an even exponent. -/
theorem sqrt_valueOf {m : Nat} {e e' : ℤ} (hm : 0 < m) {k : ℕ} (hsplit : 2 * e' + k = e) :
    √(valueOf (.finite .positive m e hm)) =
      signFactor .positive * (√((m * 2 ^ k : ℕ) : ℝ) * 2 ^ e') := by
  have hunit : (0 : ℝ) ≤ 2 ^ e' := by positivity
  have hpower : (2 : ℝ) ^ e = 2 ^ k * (2 ^ e' * 2 ^ e') := by
    rw [← zpow_natCast, ← zpow_add₀ (two_ne_zero' ℝ), ← zpow_add₀ (two_ne_zero' ℝ)]
    congr 1
    omega
  rw [valueOf, signFactor, one_mul, one_mul, hpower, ← mul_assoc, Real.sqrt_mul (by positivity),
    Real.sqrt_mul_self hunit]
  push_cast
  rfl

/-- A root taken apart. -/
theorem rounds_sqrt_parts {u : UnpackedFloat} (hfu : u.isFinite = true) (hpos : 0 ≤ valueOf u) :
    Canonical (UnpackedFloat.sqrt Format.binary64 u) ∧
      (UnpackedFloat.sqrt Format.binary64 u).isFinite = true ∧
      Rounds (√(valueOf u)) (valueOf (UnpackedFloat.sqrt Format.binary64 u)) := by
  cases u with
  | notANumber => exact absurd hfu Bool.false_ne_true
  | infinity s => exact absurd hfu Bool.false_ne_true
  | zero s =>
      rw [show valueOf (.zero s) = 0 from rfl, Real.sqrt_zero]
      exact ⟨trivial, rfl, rounds_valueOf (u := .zero s) trivial⟩
  | finite s m e hm =>
      cases s with
      | negative =>
          have hneg : (0 : ℝ) < m * 2 ^ e := mul_pos (Nat.cast_pos.mpr hm) (zpow_pos two_pos e)
          rw [valueOf, signFactor] at hpos
          linarith
      | positive =>
          -- The digits are shifted until the exponent is twice the one that the root is to have.
          obtain ⟨e', he'⟩ : ∃ e' : ℤ, min (e.ediv 2)
            (Format.binary64.targetExponent ((totalExponent m e + 1).ediv 2)) = e' := ⟨_, rfl⟩
          obtain ⟨k, hk⟩ : ∃ k : ℕ, (e - 2 * e').toNat = k := ⟨_, rfl⟩
          have hsqrt : UnpackedFloat.sqrt Format.binary64 (.finite .positive m e hm) =
              roundWithAccuracy Format.binary64 .positive (m * 2 ^ k).sqrt e'
                (if m * 2 ^ k - (m * 2 ^ k).sqrt * (m * 2 ^ k).sqrt = 0 then .exact
                  else .inexact (if m * 2 ^ k - (m * 2 ^ k).sqrt * (m * 2 ^ k).sqrt ≤
                    (m * 2 ^ k).sqrt then .lt else .gt)) := by
            rw [← hk, ← he', ← Nat.shiftLeft_eq]
            rfl
          change min (e / 2) (max ((m.log2 + 1 + e + 1) / 2 - 53) (-1074)) = e' at he'
          have hsplit : 2 * e' + (k : ℤ) = e := by omega
          have hdigits := root_digits hm (e := e') (k := k) (by
            rw [hsplit]
            omega)
          rw [hsqrt, sqrt_valueOf hm hsplit]
          exact rounds_roundWithAccuracy .positive (within_root _) hdigits.1 hdigits.2

/-- A root is rounded. It is computed as the root of a whole number with enough digits, rounded
    down, and with a note whether that was exact. -/
theorem rounds_sqrt {x : Float} (hx : x.isFinite = true) (hpos : 0 ≤ value x)
    (h : √(value x) ≤ 2 ^ (1023 : ℤ)) :
    x.sqrt.isFinite = true ∧ Rounds (√(value x)) (value x.sqrt) := by
  refine rounds_of_parts (parts_sqrt x) (rounds_sqrt_parts hx hpos) ?_
  rwa [abs_of_nonneg (Real.sqrt_nonneg _)]

end SolidModel
