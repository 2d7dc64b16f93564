import SolidModel.Proofs.Float.Parts

/-!
# Rounding

How far a rounded number is from the number that was to be rounded.

Arithmetic on floats computes a mantissa that may be too long, or one that is only the whole part
of the exact result. Two bits go with it and say where the exact result lies between this mantissa
and the next one: whether it is in the upper half, and whether it is strictly inside of its half.
`Stands` gives these bits their meaning as a real number. A mantissa that is shifted to the right
stands for the number divided by two, and rounding goes to the nearest mantissa.

`Rounds` is the upshot for a whole number with sign and exponent, and it does not speak of bits any
more. The result is a multiple of a unit, it differs from the exact number by half a unit at most,
and unless the unit is the smallest one there is, the number has fifty-three digits in it.

## Main definitions

* `valueOf`: The number that a float taken apart stands for.
* `Canonical`: A mantissa of the right length.
* `Stands`: The number that a mantissa stands for with its residual bits.
* `Within`: What the accuracy of a mantissa says about the exact number.
* `Rounds`: A number is rounded to another.

## Theorems

* `Stands.shiftRight`, `Stands.abs_rounded_sub_le`: The two steps of rounding.
* `rounds_roundWithAccuracy`: The rounding of a result that is known with some accuracy.
* `Rounds.abs_sub_le`, `Rounds.abs_le`: Bounds on the error and on the result.
-/

namespace SolidModel

open Float.Model UnpackedFloat

/-- The factor of a sign. -/
noncomputable def signFactor : Sign → ℝ
  | .positive => 1
  | .negative => -1

/-- The number that a float taken apart stands for, zero if it is not finite. -/
noncomputable def valueOf : UnpackedFloat → ℝ
  | .finite s m e _ => signFactor s * (m * 2 ^ e)
  | _ => 0

/-- A mantissa has fifty-three digits, or fewer with the least exponent there is. -/
def Canonical : UnpackedFloat → Prop
  | .finite _ m e _ => m < 2 ^ 53 ∧ -1074 ≤ e ∧ (2 ^ 52 ≤ m ∨ e = -1074)
  | _ => True

theorem abs_signFactor (s : Sign) : |signFactor s| = 1 := by
  cases s <;> simp [signFactor]

/-- What a mantissa and its residual bits stand for. -/
def Stands (em : ExtendedMantissa) (r : ℝ) : Prop :=
  ∃ rest : ℝ, r = em.mantissa + rest ∧ 0 ≤ rest ∧ rest < 1 ∧
    (em.roundBit = true ↔ 1 / 2 ≤ rest) ∧ (em.stickyBit = true ↔ rest ≠ 0 ∧ rest ≠ 1 / 2)

/-- What the accuracy of a mantissa says of the exact number. -/
def Within (m : Nat) : Accuracy → ℝ → Prop
  | .exact, r => r = m
  | .inexact .lt, r => m < r ∧ r < m + 1 / 2
  | .inexact .eq, r => r = m + 1 / 2
  | .inexact .gt, r => m + 1 / 2 < r ∧ r < m + 1

theorem stands_of_within {m : Nat} {accuracy : Accuracy} {r : ℝ} (h : Within m accuracy r) :
    Stands (ExtendedMantissa.ofMantissaAndAccuracy m accuracy) r := by
  -- Two flags stand for the rest: whether it reaches the middle, and whether there is more to it.
  cases accuracy with
  | exact =>
      refine ⟨0, ?_⟩
      have hr : r = m := h
      simp [ExtendedMantissa.ofMantissaAndAccuracy, hr]
  | inexact ordering =>
      cases ordering with
      | lt =>
          have hr : (m : ℝ) < r ∧ r < m + 1 / 2 := h
          refine ⟨r - m, (add_sub_cancel _ _).symm, by linarith, by linarith, ?_, ?_⟩
          · simp only [ExtendedMantissa.ofMantissaAndAccuracy, Bool.false_eq_true, false_iff]
            linarith
          · simp only [ExtendedMantissa.ofMantissaAndAccuracy, true_iff]
            exact ⟨by linarith, by linarith⟩
      | eq =>
          have hr : r = m + 1 / 2 := h
          refine ⟨1 / 2, hr, by norm_num, by norm_num, ?_, ?_⟩
          · simp [ExtendedMantissa.ofMantissaAndAccuracy]
          · simp [ExtendedMantissa.ofMantissaAndAccuracy]
      | gt =>
          have hr : (m : ℝ) + 1 / 2 < r ∧ r < m + 1 := h
          refine ⟨r - m, (add_sub_cancel _ _).symm, by linarith, by linarith, ?_, ?_⟩
          · simp only [ExtendedMantissa.ofMantissaAndAccuracy, true_iff]
            linarith
          · simp only [ExtendedMantissa.ofMantissaAndAccuracy, true_iff]
            exact ⟨by linarith, by linarith⟩

namespace Stands

variable {em : ExtendedMantissa} {r : ℝ}

theorem le (h : Stands em r) : (em.mantissa : ℝ) ≤ r := by
  rcases h with ⟨rest, hr, hlow, _⟩
  linarith

theorem lt (h : Stands em r) : r < em.mantissa + 1 := by
  rcases h with ⟨rest, hr, _, hhigh, _⟩
  linarith

/-- A mantissa that is shifted to the right stands for half the number. -/
theorem shiftRightOne (h : Stands em r) : Stands em.shiftRightOne (r / 2) := by
  rcases h with ⟨rest, hr, hlow, hhigh, hround, hsticky⟩
  have hsplit : (em.mantissa : ℝ) = 2 * (em.mantissa / 2 : ℕ) + (em.mantissa % 2 : ℕ) := by
    exact_mod_cast (Nat.div_add_mod em.mantissa 2).symm
  -- The lowest digit of the mantissa is what decides about the half.
  rcases Nat.mod_two_eq_zero_or_one em.mantissa with hdigit | hdigit
  · rw [hdigit, Nat.cast_zero, add_zero] at hsplit
    refine ⟨rest / 2, ?_, by linarith, by linarith, ?_, ?_⟩
    · rw [ExtendedMantissa.shiftRightOne]
      linarith
    · simp only [ExtendedMantissa.shiftRightOne, hdigit, bne_self_eq_false, Bool.false_eq_true,
        false_iff]
      linarith
    · simp only [ExtendedMantissa.shiftRightOne, Bool.or_eq_true, hround, hsticky]
      constructor
      · rintro (hhalf | ⟨hne, _⟩)
        · exact ⟨by linarith, by linarith⟩
        · exact ⟨div_ne_zero hne two_ne_zero, by linarith⟩
      · rintro ⟨hne, _⟩
        have hrest : rest ≠ 0 := fun heq => hne (by rw [heq, zero_div])
        rcases le_or_gt (1 / 2) rest with hhalf | hhalf
        · exact Or.inl hhalf
        · exact Or.inr ⟨hrest, ne_of_lt hhalf⟩
  · rw [hdigit, Nat.cast_one] at hsplit
    refine ⟨(1 + rest) / 2, ?_, by linarith, by linarith, ?_, ?_⟩
    · rw [ExtendedMantissa.shiftRightOne]
      linarith
    · simp only [ExtendedMantissa.shiftRightOne, hdigit, true_iff, bne_iff_ne, ne_eq, one_ne_zero,
        not_false_eq_true]
      linarith
    · simp only [ExtendedMantissa.shiftRightOne, Bool.or_eq_true, hround, hsticky]
      constructor
      · rintro (hhalf | ⟨hne, _⟩)
        · exact ⟨by linarith, by linarith⟩
        · exact ⟨by linarith, fun heq => hne (by linarith)⟩
      · rintro ⟨_, hne⟩
        have hrest : rest ≠ 0 := fun heq => hne (by rw [heq, add_zero])
        rcases le_or_gt (1 / 2) rest with hhalf | hhalf
        · exact Or.inl hhalf
        · exact Or.inr ⟨hrest, ne_of_lt hhalf⟩

theorem shiftRight (h : Stands em r) (n : Nat) : Stands (em >>> n) (r / 2 ^ n) := by
  change Stands (n.repeat ExtendedMantissa.shiftRightOne em) (r / 2 ^ n)
  induction n with
  | zero =>
      rw [pow_zero, div_one]
      exact h
  | succ n ih =>
      rw [pow_succ, ← div_div]
      exact ih.shiftRightOne

/-- The rounded mantissa is one of the nearest. -/
theorem abs_rounded_sub_le (h : Stands em r) : |(em.roundedMantissa : ℝ) - r| ≤ 1 / 2 := by
  rcases em with ⟨m, roundBit, stickyBit⟩
  rcases h with ⟨rest, hr, hlow, hhigh, hround, hsticky⟩
  dsimp only at hr hround hsticky
  rw [hr, abs_le]
  cases roundBit with
  | false =>
      have hhalf : rest < 1 / 2 :=
        lt_of_not_ge fun hge => absurd (hround.mpr hge) Bool.false_ne_true
      have hdown : (ExtendedMantissa.mk m false stickyBit).roundedMantissa = m := by
        cases stickyBit <;> rfl
      rw [hdown]
      constructor <;> linarith
  | true =>
      have hhalf := hround.mp rfl
      cases stickyBit with
      | true =>
          change _ ≤ ((m + 1 : ℕ) : ℝ) - _ ∧ ((m + 1 : ℕ) : ℝ) - _ ≤ _
          push_cast
          constructor <;> linarith
      | false =>
          -- A tie, which goes to the even one of the two.
          have htie : rest = 1 / 2 := by
            by_contra hne
            exact Bool.false_ne_true (hsticky.mpr ⟨by linarith, hne⟩)
          change _ ≤ ((m + m % 2 : ℕ) : ℝ) - _ ∧ ((m + m % 2 : ℕ) : ℝ) - _ ≤ _
          rcases Nat.mod_two_eq_zero_or_one m with hdigit | hdigit <;> rw [hdigit, htie] <;>
            push_cast <;> constructor <;> linarith

end Stands

theorem targetExponent_eq (x : ℤ) : Format.binary64.targetExponent x = max (x - 53) (-1074) := rfl

/-- The exponent that a mantissa is brought to. -/
def target (m : Nat) (e : ℤ) : ℤ := max (m.log2 + 1 + e - 53) (-1074)

theorem shiftToTargetExponent_eq (m : Nat) (e : ℤ) (accuracy : Accuracy) :
    shiftToTargetExponent Format.binary64 m e accuracy =
      (ExtendedMantissa.ofMantissaAndAccuracy m accuracy >>> (target m e - e).toNat,
        e + (target m e - e).toNat) := rfl

/-- A number is rounded to another: a multiple of a unit, half a unit away at most. Unless the unit
    is the smallest one, the number is not small in terms of it. -/
def Rounds (r v : ℝ) : Prop :=
  ∃ t q : ℤ, v = q * 2 ^ t ∧ |v - r| ≤ 2 ^ t / 2 ∧ -1074 ≤ t ∧ (t = -1074 ∨ 2 ^ (t + 52) ≤ |r|)

theorem Rounds.neg {r v : ℝ} (h : Rounds r v) : Rounds (-r) (-v) := by
  rcases h with ⟨t, q, hv, hnear, hleast, hlow⟩
  refine ⟨t, -q, by rw [hv, Int.cast_neg, neg_mul], ?_, hleast, by rwa [abs_neg]⟩
  rwa [neg_sub_neg, abs_sub_comm]

theorem Rounds.signed {r v : ℝ} (h : Rounds r v) (s : Sign) :
    Rounds (signFactor s * r) (signFactor s * v) := by
  cases s with
  | positive =>
      rw [signFactor, one_mul, one_mul]
      exact h
  | negative =>
      rw [signFactor, neg_one_mul, neg_one_mul]
      exact h.neg

/-- To bring a rounded mantissa to length loses nothing. -/
theorem mantissa_shiftToTargetExponent {q : Nat} {t : ℤ} (hq : q ≤ 2 ^ 53) (ht : -1074 ≤ t) :
    ∃ em t', shiftToTargetExponent Format.binary64 q t .exact = (em, t') ∧
      (em.mantissa : ℝ) * 2 ^ t' = q * 2 ^ t ∧ em.mantissa < 2 ^ 53 ∧ t ≤ t' ∧
      (2 ^ 52 ≤ em.mantissa ∨ em.mantissa = q ∧ t' = t) := by
  refine ⟨_, _, shiftToTargetExponent_eq q t .exact, ?_⟩
  rcases Nat.lt_or_eq_of_le hq with hlt | heq
  · -- The mantissa is short enough already.
    have hlog : q.log2 < 53 := by
      rcases Nat.eq_zero_or_pos q with hzero | hpos
      · rw [hzero]
        decide
      · exact (Nat.log2_lt hpos.ne').mpr hlt
    have hshift : (target q t - t).toNat = 0 := by
      unfold target
      omega
    rw [hshift]
    change (q : ℝ) * 2 ^ (t + ((0 : ℕ) : ℤ)) = _ ∧ q < 2 ^ 53 ∧ t ≤ t + ((0 : ℕ) : ℤ) ∧
      (2 ^ 52 ≤ q ∨ q = q ∧ t + ((0 : ℕ) : ℤ) = t)
    refine ⟨by rw [Nat.cast_zero, add_zero], hlt, by omega, Or.inr ⟨rfl, by omega⟩⟩
  · -- Rounding has carried all the way up.
    have hlog : q.log2 = 53 := by rw [heq, Nat.log2_two_pow]
    have hshift : (target q t - t).toNat = 1 := by
      unfold target
      omega
    rw [hshift, heq]
    change ((2 ^ 53 / 2 : ℕ) : ℝ) * 2 ^ (t + ((1 : ℕ) : ℤ)) = _ ∧ 2 ^ 53 / 2 < 2 ^ 53 ∧
      t ≤ t + ((1 : ℕ) : ℤ) ∧ (2 ^ 52 ≤ 2 ^ 53 / 2 ∨ _)
    refine ⟨?_, by norm_num, by omega, Or.inl (by norm_num)⟩
    rw [Nat.cast_one, zpow_add_one₀ two_ne_zero]
    norm_num
    ring

/-- The exact number, in terms of the unit of the result. -/
theorem stands_shiftToTargetExponent {m : Nat} {e : ℤ} {accuracy : Accuracy} {r : ℝ}
    (hr : Within m accuracy r) (hle : e ≤ target m e) (hpos : 0 < m ∨ target m e = -1074) :
    ∃ em ρ, shiftToTargetExponent Format.binary64 m e accuracy = (em, target m e) ∧ Stands em ρ ∧
      ρ * 2 ^ target m e = r * 2 ^ e ∧ ρ < 2 ^ 53 ∧ (2 ^ 52 ≤ ρ ∨ target m e = -1074) := by
  obtain ⟨n, hn⟩ : ∃ n : ℕ, (target m e - e).toNat = n := ⟨_, rfl⟩
  have hexponent : e + (n : ℤ) = target m e := by omega
  have hstands := stands_of_within hr
  have hmantissa : (ExtendedMantissa.ofMantissaAndAccuracy m accuracy).mantissa = m := by
    cases accuracy with
    | exact => rfl
    | inexact ordering => cases ordering <;> rfl
  have hlow : (m : ℝ) ≤ r := by
    have h := hstands.le
    rwa [hmantissa] at h
  have hhigh : r < m + 1 := by
    have h := hstands.lt
    rwa [hmantissa] at h
  have hunit : (0 : ℝ) < 2 ^ n := pow_pos two_pos n
  refine ⟨_, r / 2 ^ n, ?_, hstands.shiftRight n, ?_, ?_, ?_⟩
  · rw [shiftToTargetExponent_eq, hn, hexponent]
  · rw [← hexponent, zpow_add₀ two_ne_zero, zpow_natCast]
    field_simp
  -- As many digits are shifted out as there are beyond 53.
  · have hdigits : m.log2 + 1 ≤ 53 + n := by
      unfold target at hexponent
      omega
    have hm : m + 1 ≤ 2 ^ (53 + n) :=
      Nat.le_trans Nat.lt_log2_self (Nat.pow_le_pow_right two_pos hdigits)
    have hm' : (m : ℝ) + 1 ≤ 2 ^ (53 + n) := by exact_mod_cast hm
    rw [div_lt_iff₀ hunit, ← pow_add]
    linarith
  · rcases eq_or_ne (target m e) (-1074) with hleast | hmore
    · exact Or.inr hleast
    · have hdigits : m.log2 = 52 + n := by
        unfold target at hexponent hmore
        omega
      have hne : m ≠ 0 := Nat.pos_iff_ne_zero.mp (hpos.resolve_right hmore)
      have hm : 2 ^ (52 + n) ≤ m := by
        rw [← hdigits]
        exact Nat.log2_self_le hne
      have hm' : (2 : ℝ) ^ (52 + n) ≤ m := by exact_mod_cast hm
      rw [le_div_iff₀ hunit, ← pow_add]
      exact Or.inl (hm'.trans hlow)

namespace Stands

variable {em : ExtendedMantissa} {ρ : ℝ}

/-- Rounding may carry all the way up, but not farther. -/
theorem roundedMantissa_le (h : Stands em ρ) (hhigh : ρ < 2 ^ 53) :
    em.roundedMantissa ≤ 2 ^ 53 := by
  have hnear := (abs_le.mp h.abs_rounded_sub_le).2
  have hlt : (em.roundedMantissa : ℝ) < ((2 ^ 53 + 1 : ℕ) : ℝ) := by
    push_cast
    linarith
  exact Nat.lt_succ_iff.mp (Nat.cast_lt.mp hlt)

/-- Rounding loses no digit. -/
theorem le_roundedMantissa (h : Stands em ρ) (hlow : 2 ^ 52 ≤ ρ) : 2 ^ 52 ≤ em.roundedMantissa := by
  have hnear := (abs_le.mp h.abs_rounded_sub_le).1
  have hlt : ((2 ^ 52 : ℕ) : ℝ) < ((em.roundedMantissa + 1 : ℕ) : ℝ) := by
    push_cast
    linarith
  exact Nat.lt_succ_iff.mp (Nat.cast_lt.mp hlt)

/-- A number in terms of a unit is rounded to a multiple of the unit. -/
theorem rounds (h : Stands em ρ) {t : ℤ} (ht : -1074 ≤ t) (hlow : 2 ^ 52 ≤ ρ ∨ t = -1074) :
    Rounds (ρ * 2 ^ t) (em.roundedMantissa * 2 ^ t) := by
  have hunit : (0 : ℝ) < 2 ^ t := zpow_pos two_pos t
  refine ⟨t, em.roundedMantissa, by rw [Int.cast_natCast], ?_, ht, ?_⟩
  · rw [← sub_mul, abs_mul, abs_of_pos hunit]
    linarith [mul_le_mul_of_nonneg_right h.abs_rounded_sub_le hunit.le]
  · rcases hlow with hlow | hlow
    · have hlow' : (2 : ℝ) ^ (52 : ℤ) ≤ ρ := by exact_mod_cast hlow
      rw [add_comm, zpow_add₀ two_ne_zero]
      exact Or.inr ((mul_le_mul_of_nonneg_right hlow' hunit.le).trans (le_abs_self _))
    · exact Or.inl hlow

end Stands

/-- A result that is known with some accuracy is rounded to a number with a mantissa of the right
    length. It must not have too few digits to begin with. All operations end with this step: what
    they know is a mantissa, and whether the exact result lies on it, below the middle to the next
    one, there, or above. -/
theorem rounds_roundWithAccuracy (s : Sign) {m : Nat} {e : ℤ} {accuracy : Accuracy} {r : ℝ}
    (hr : Within m accuracy r) (hle : e ≤ target m e) (hpos : 0 < m ∨ target m e = -1074) :
    Canonical (roundWithAccuracy Format.binary64 s m e accuracy) ∧
      (roundWithAccuracy Format.binary64 s m e accuracy).isFinite = true ∧
      Rounds (signFactor s * (r * 2 ^ e))
        (valueOf (roundWithAccuracy Format.binary64 s m e accuracy)) := by
  have hleast : -1074 ≤ target m e := le_max_right _ _
  -- The mantissa is brought to length, rounded, and brought to length once more.
  rcases stands_shiftToTargetExponent hr hle hpos with ⟨em, ρ, hfirst, hstands, hρ, hhigh, hlow⟩
  have hrounds := hstands.rounds hleast hlow
  have hlow52 := hlow.imp_left hstands.le_roundedMantissa
  rcases mantissa_shiftToTargetExponent (hstands.roundedMantissa_le hhigh) hleast with
    ⟨em', t', hsecond, hvalue, hlt, ht', hform⟩
  rw [hρ] at hrounds
  set q := em.roundedMantissa with hq
  have hround : roundWithAccuracy Format.binary64 s m e accuracy =
      if h : em'.mantissa = 0 then .zero s
      else .finite s em'.mantissa t' (Nat.pos_of_ne_zero h) := by
    unfold roundWithAccuracy
    simp only [hfirst, ← hq, hsecond]
  rw [hround]
  split
  · next hzero =>
      rw [hzero, Nat.cast_zero, zero_mul] at hvalue
      rw [← hvalue] at hrounds
      refine ⟨trivial, rfl, ?_⟩
      have h := hrounds.signed s
      rwa [mul_zero] at h
  · next hne =>
      rw [← hvalue] at hrounds
      refine ⟨⟨hlt, hleast.trans ht', ?_⟩, rfl, hrounds.signed s⟩
      rcases hform with hform | ⟨hsame, heq⟩
      · exact Or.inl hform
      · rw [hsame, heq]
        exact hlow52

namespace Rounds

variable {r v : ℝ}

/-- The error is small in terms of a power of two that the number does not exceed. Below the
    smallest power the unit no longer shrinks with the number, so that the power must not be too
    small. -/
theorem abs_sub_le (h : Rounds r v) {k : ℤ} (hk : -1022 ≤ k) (hr : |r| ≤ 2 ^ k) :
    |v - r| ≤ 2 ^ (k - 53) := by
  rcases h with ⟨t, q, _, hnear, _, hlow⟩
  have ht : t ≤ k - 52 := by
    rcases hlow with hleast | hlow
    · omega
    · have h := (zpow_le_zpow_iff_right₀ (one_lt_two (α := ℝ))).mp (hlow.trans hr)
      omega
  have hunit : (2 : ℝ) ^ t ≤ 2 ^ (k - 52) := zpow_le_zpow_right₀ one_le_two ht
  have hhalf : (2 : ℝ) ^ (k - 52) / 2 = 2 ^ (k - 53) := by
    rw [div_eq_mul_inv, ← zpow_sub_one₀ (two_ne_zero' ℝ)]
    congr 1
    omega
  linarith

/-- The error is small in terms of the number itself, or next to nothing. -/
theorem abs_sub_le_mul (h : Rounds r v) : |v - r| ≤ 2 ^ (-53 : ℤ) * |r| + 2 ^ (-1075 : ℤ) := by
  rcases h with ⟨t, q, _, hnear, _, hlow⟩
  rcases hlow with hleast | hlow
  · rw [hleast] at hnear
    have hhalf : (2 : ℝ) ^ (-1074 : ℤ) / 2 = 2 ^ (-1075 : ℤ) := by
      rw [div_eq_mul_inv, ← zpow_sub_one₀ (two_ne_zero' ℝ)]
      norm_num
    have hpos : 0 ≤ (2 : ℝ) ^ (-53 : ℤ) * |r| := by positivity
    rw [hhalf] at hnear
    linarith
  · have hhalf : (2 : ℝ) ^ t / 2 = 2 ^ (-53 : ℤ) * 2 ^ (t + 52) := by
      rw [div_eq_mul_inv, ← zpow_sub_one₀ (two_ne_zero' ℝ), ← zpow_add₀ (two_ne_zero' ℝ)]
      congr 1
      omega
    have hshare := mul_le_mul_of_nonneg_left hlow (by positivity : (0 : ℝ) ≤ 2 ^ (-53 : ℤ))
    have hpos : (0 : ℝ) ≤ 2 ^ (-1075 : ℤ) := by positivity
    rw [hhalf] at hnear
    linarith

/-- A power of two that the number does not exceed, the rounded number does not exceed either. For
    the power is a float itself, and rounding does not pass over one. -/
theorem abs_le (h : Rounds r v) {k : ℤ} (hk : -1074 ≤ k) (hr : |r| ≤ 2 ^ k) : |v| ≤ 2 ^ k := by
  rcases h with ⟨t, q, hv, hnear, _, hlow⟩
  have ht : t ≤ k := by
    rcases hlow with hleast | hlow
    · omega
    · have h := (zpow_le_zpow_iff_right₀ (one_lt_two (α := ℝ))).mp (hlow.trans hr)
      omega
  have hunit : (0 : ℝ) < 2 ^ t := zpow_pos two_pos t
  -- Both are multiples of the unit, and half a unit is not enough to get beyond.
  obtain ⟨n, hn⟩ := Int.eq_ofNat_of_zero_le (Int.sub_nonneg_of_le ht)
  have hpower : (2 : ℝ) ^ k = ((2 ^ n : ℕ) : ℤ) * 2 ^ t := by
    rw [Int.cast_natCast, Nat.cast_pow, Nat.cast_ofNat, ← zpow_natCast, ← zpow_add₀ two_ne_zero]
    congr 1
    omega
  have hq : |(q : ℝ)| * 2 ^ t ≤ ((2 ^ n : ℕ) : ℤ) * 2 ^ t + 2 ^ t / 2 := by
    have habs : |v| = |(q : ℝ)| * 2 ^ t := by rw [hv, abs_mul, abs_of_pos hunit]
    have htriangle := abs_sub_abs_le_abs_sub v r
    rw [← hpower, ← habs]
    linarith
  have hq' : |q| < ((2 ^ n : ℕ) : ℤ) + 1 := by
    have h : (|q| : ℝ) < ((((2 ^ n : ℕ) : ℤ) + 1 : ℤ) : ℝ) := by
      push_cast at hq ⊢
      nlinarith
    exact_mod_cast h
  rw [hv, abs_mul, abs_of_pos hunit, hpower]
  refine mul_le_mul_of_nonneg_right ?_ hunit.le
  exact_mod_cast Int.lt_add_one_iff.mp hq'

theorem nonneg (h : Rounds r v) (hr : 0 ≤ r) : 0 ≤ v := by
  rcases h with ⟨t, q, hv, hnear, _, _⟩
  have hunit : (0 : ℝ) < 2 ^ t := zpow_pos two_pos t
  have hlow := neg_le_of_abs_le hnear
  rw [hv] at hlow ⊢
  have hq : (((-1 : ℤ) : ℤ) : ℝ) < q := by
    push_cast
    nlinarith
  have hq' : (0 : ℝ) ≤ q := by exact_mod_cast (by exact_mod_cast hq : -1 < q)
  exact mul_nonneg hq' hunit.le

/-- A power of two that the number reaches, the rounded number reaches as well. -/
theorem le_abs (h : Rounds r v) {k : ℤ} (hk : -1074 ≤ k) (hr : 2 ^ k ≤ |r|) : 2 ^ k ≤ |v| := by
  rcases h with ⟨t, q, hv, hnear, _, hlow⟩
  have hunit : (0 : ℝ) < 2 ^ t := zpow_pos two_pos t
  have htriangle := abs_sub_abs_le_abs_sub r v
  rw [abs_sub_comm] at htriangle
  -- A power that is a multiple of the unit is not rounded past.
  by_cases ht : t ≤ k
  · obtain ⟨n, hn⟩ := Int.eq_ofNat_of_zero_le (Int.sub_nonneg_of_le ht)
    have hpower : (2 : ℝ) ^ k = ((2 ^ n : ℕ) : ℤ) * 2 ^ t := by
      rw [Int.cast_natCast, Nat.cast_pow, Nat.cast_ofNat, ← zpow_natCast, ← zpow_add₀ two_ne_zero]
      congr 1
      omega
    have habs : |v| = |(q : ℝ)| * 2 ^ t := by rw [hv, abs_mul, abs_of_pos hunit]
    have hq : ((2 ^ n : ℕ) : ℤ) < |q| + 1 := by
      have h : ((((2 ^ n : ℕ) : ℤ) : ℤ) : ℝ) < ((|q| + 1 : ℤ) : ℝ) := by
        rw [habs] at htriangle
        rw [hpower] at hr
        push_cast at hr ⊢
        nlinarith
      exact_mod_cast h
    rw [habs, hpower]
    refine mul_le_mul_of_nonneg_right ?_ hunit.le
    exact_mod_cast Int.lt_add_one_iff.mp hq
  · -- The unit is not the smallest one then, and the number is large in terms of it.
    have hlow' := hlow.resolve_left (by omega)
    have hstep : (2 : ℝ) ^ k ≤ 2 ^ t := zpow_le_zpow_right₀ one_le_two (by omega)
    have hpower : (2 : ℝ) ^ (t + 52) = 2 ^ (52 : ℤ) * 2 ^ t := by
      rw [add_comm, zpow_add₀ two_ne_zero]
    norm_num at hpower
    linarith

end Rounds

end SolidModel
