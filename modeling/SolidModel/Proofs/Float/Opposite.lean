import SolidModel.Proofs.Float.Error

/-!
# Opposite Floats

That arithmetic treats opposite numbers alike.

Rounding goes to the nearest float, and if two are as near, to the even one. No sign takes part in
that. So the products of opposite numbers with the same number are opposite to the last bit, and so
are their sums and quotients. A bound on the error could not say as much.

There are two zeros, and they count as opposite to themselves and to each other. Every other number
has one opposite.

What is a float already is not changed by rounding. This is the other thing that can be known to the
last bit.

## Main definitions

* `Opposite`: Two numbers taken apart that differ in their signs alone.
* `Mirrored`: Two floats with opposite values.

## Theorems

* `Opposite.of_valueOf`: Numbers with opposite values are opposite.
* `Mirrored.add`, `Mirrored.sub`, `Mirrored.mul`, `Mirrored.div`: Results of opposite numbers.
* `Rounds.eq_value`: What is a float already is not rounded.
-/

namespace SolidModel

open Float.Model UnpackedFloat

/-- Two numbers taken apart that differ in their signs alone, and not even in these if they are
    zero. -/
inductive Opposite : UnpackedFloat → UnpackedFloat → Prop
  | zero (s t : Sign) : Opposite (.zero s) (.zero t)
  | finite (s : Sign) (m : Nat) (e : ℤ) (hm : 0 < m) :
      Opposite (.finite s m e hm) (.finite (-s) m e hm)

theorem signFactor_neg (s : Sign) : signFactor (-s) = -signFactor s := by
  cases s with
  | positive => rfl
  | negative => exact (neg_neg 1).symm

/-- A mantissa of the right length and its exponent are known from the number. -/
theorem eq_of_mul_two_zpow_eq {m n : Nat} {e f : ℤ} (hm : 0 < m) (hn : 0 < n)
    (hu : Canonical (.finite .positive m e hm)) (hv : Canonical (.finite .positive n f hn))
    (h : (m : ℝ) * 2 ^ e = n * 2 ^ f) : m = n ∧ e = f := by
  have hexponent : e = f := by
    rcases lt_trichotomy e f with hlt | heq | hgt
    · exact absurd h (lt_of_exponent_lt hu.1 hu.2.1 hv.2.2 hlt).ne
    · exact heq
    · exact absurd h (lt_of_exponent_lt hv.1 hv.2.1 hu.2.2 hgt).ne'
  rw [← hexponent, mul_left_inj' (zpow_pos two_pos e).ne', Nat.cast_inj] at h
  exact ⟨h, hexponent⟩

namespace Opposite

variable {u u' v v' : UnpackedFloat}

/-- Numbers with opposite values are opposite. They have to be canonical, for otherwise one value
    has several forms. -/
theorem of_valueOf (hu : Canonical u) (hv : Canonical v) (hfu : u.isFinite = true)
    (hfv : v.isFinite = true) (h : valueOf v = -valueOf u) : Opposite u v := by
  have hfinite (s : Sign) (m : Nat) (e : ℤ) (hm : 0 < m) :
      valueOf (.finite s m e hm) = signFactor s * (m * 2 ^ e) := rfl
  have hzero (s : Sign) : valueOf (.zero s) = 0 := rfl
  cases u with
  | notANumber => exact absurd hfu Bool.false_ne_true
  | infinity s => exact absurd hfu Bool.false_ne_true
  | zero s =>
      cases v with
      | notANumber => exact absurd hfv Bool.false_ne_true
      | infinity t => exact absurd hfv Bool.false_ne_true
      | zero t => exact .zero s t
      | finite t n f hn =>
          have hpos := mul_two_zpow_pos hn f
          rw [hzero, hfinite] at h
          cases t <;> rw [signFactor] at h <;> linarith
  | finite s m e hm =>
      have hpos := mul_two_zpow_pos hm e
      cases v with
      | notANumber => exact absurd hfv Bool.false_ne_true
      | infinity t => exact absurd hfv Bool.false_ne_true
      | zero t =>
          rw [hzero, hfinite] at h
          cases s <;> rw [signFactor] at h <;> linarith
      | finite t n f hn =>
          have hpos' := mul_two_zpow_pos hn f
          rw [hfinite, hfinite] at h
          -- Neither is zero, so that the signs differ, and the rest has to be the same.
          have hsign : t = -s := by
            cases s <;> cases t <;> first
              | rfl
              | (rw [signFactor] at h; linarith)
          rw [hsign, signFactor_neg, neg_mul, neg_inj] at h
          have hsame := mul_left_cancel₀ (by cases s <;> norm_num [signFactor]) h
          rcases eq_of_mul_two_zpow_eq hn hm hv hu hsame with ⟨rfl, rfl⟩
          rw [hsign]
          exact .finite s n f hm

theorem value (h : Opposite u u') : valueOf u' = -valueOf u := by
  cases h with
  | zero s t => exact neg_zero.symm
  | finite s m e hm => rw [valueOf, valueOf, signFactor_neg, neg_mul]

theorem isFinite (h : Opposite u u') : u.isFinite = true ∧ u'.isFinite = true := by
  cases h <;> exact ⟨rfl, rfl⟩

/-- Opposite numbers stay opposite when they are put together, if the one is in range. -/
theorem stored (h : Opposite u u') (hu : Canonical u) (hfits : Fits u) :
    Opposite (stored u) (stored u') := by
  cases h with
  | zero s t =>
      rw [stored_zero, stored_zero]
      exact .zero s t
  | finite s m e hm =>
      rw [stored_eq_self hu hfits, stored_eq_self (u := .finite (-s) m e hm) hu hfits]
      exact .finite s m e hm

/-- Rounding does not look at signs. -/
theorem roundWithAccuracy (s : Sign) (m : Nat) (e : ℤ) (accuracy : Accuracy) :
    Opposite (UnpackedFloat.roundWithAccuracy Format.binary64 s m e accuracy)
      (UnpackedFloat.roundWithAccuracy Format.binary64 (-s) m e accuracy) := by
  unfold UnpackedFloat.roundWithAccuracy
  dsimp only
  split
  · exact .zero s (-s)
  · exact .finite s _ _ _

theorem normalize (m e : ℤ) (s t : Sign) :
    Opposite (UnpackedFloat.normalize Format.binary64 m e s)
      (UnpackedFloat.normalize Format.binary64 (-m) e t) := by
  unfold UnpackedFloat.normalize
  rcases lt_trichotomy m 0 with h | h | h
  · rw [Int.compare_eq_lt.mpr h, Int.compare_eq_gt.mpr (by omega : -m > 0)]
    exact roundWithAccuracy .negative _ _ .exact
  · rw [h]
    exact .zero s t
  · rw [Int.compare_eq_gt.mpr h, Int.compare_eq_lt.mpr (by omega : -m < 0)]
    simp only [neg_neg]
    exact roundWithAccuracy .positive _ _ .exact

theorem add (hu : Opposite u u') (hv : Opposite v v') :
    Opposite (UnpackedFloat.add Format.binary64 u v) (UnpackedFloat.add Format.binary64 u' v') := by
  cases hu with
  | zero s t =>
      cases hv with
      | zero s' t' => cases s <;> cases t <;> cases s' <;> cases t' <;> exact .zero _ _
      | finite s' n f hn => exact .finite s' n f hn
  | finite s m e hm =>
      cases hv with
      | zero s' t' => exact .finite s m e hm
      | finite s' n f hn =>
          simp only [UnpackedFloat.add, apply_neg]
          rw [← Int.neg_add]
          exact normalize _ _ _ _

theorem neg (h : Opposite u u') : Opposite u.neg u'.neg := by
  cases h with
  | zero s t => exact .zero (-s) (-t)
  | finite s m e hm => exact .finite (-s) m e hm

theorem sub (hu : Opposite u u') (hv : Opposite v v') :
    Opposite (UnpackedFloat.sub Format.binary64 u v) (UnpackedFloat.sub Format.binary64 u' v') := by
  rw [sub_eq_add_neg_parts, sub_eq_add_neg_parts]
  exact hu.add hv.neg

theorem mul (hu : Opposite u u') (hfv : v.isFinite = true) :
    Opposite (UnpackedFloat.mul Format.binary64 u v) (UnpackedFloat.mul Format.binary64 u' v) := by
  cases v with
  | notANumber => exact absurd hfv Bool.false_ne_true
  | infinity t => exact absurd hfv Bool.false_ne_true
  | zero t => cases hu <;> exact .zero _ _
  | finite t n f hn =>
      cases hu with
      | zero s s' => exact .zero _ _
      | finite s m e hm =>
          have hsign : -s * t = -(s * t) := by cases s <;> cases t <;> rfl
          simp only [UnpackedFloat.mul, hsign]
          exact roundWithAccuracy _ _ _ _

theorem mul_left (hv : Opposite v v') (hfu : u.isFinite = true) :
    Opposite (UnpackedFloat.mul Format.binary64 u v) (UnpackedFloat.mul Format.binary64 u v') := by
  cases u with
  | notANumber => exact absurd hfu Bool.false_ne_true
  | infinity s => exact absurd hfu Bool.false_ne_true
  | zero s => cases hv <;> exact .zero _ _
  | finite s m e hm =>
      cases hv with
      | zero t t' => exact .zero _ _
      | finite t n f hn =>
          have hsign : s * -t = -(s * t) := by cases s <;> cases t <;> rfl
          simp only [UnpackedFloat.mul, hsign]
          exact roundWithAccuracy _ _ _ _

theorem div (hu : Opposite u u') (hfv : v.isFinite = true) (hne : valueOf v ≠ 0) :
    Opposite (UnpackedFloat.div Format.binary64 u v) (UnpackedFloat.div Format.binary64 u' v) := by
  cases v with
  | notANumber => exact absurd hfv Bool.false_ne_true
  | infinity t => exact absurd hfv Bool.false_ne_true
  | zero t => exact absurd rfl hne
  | finite t n f hn =>
      cases hu with
      | zero s s' => exact .zero _ _
      | finite s m e hm =>
          have hsign : -s / t = -(s / t) := by cases s <;> cases t <;> rfl
          simp only [UnpackedFloat.div, hsign]
          exact roundWithAccuracy _ _ _ _

end Opposite

/-- Two finite floats with opposite values. -/
structure Mirrored (x y : Float) : Prop where
  /-- The first float has a value. -/
  left : x.isFinite = true
  /-- The second float has a value. -/
  right : y.isFinite = true
  /-- The values differ in sign only. Two zeros are opposite whatever their signs. -/
  value : value y = -value x

namespace Mirrored

variable {x x' y y' z : Float}

theorem parts (h : Mirrored x x') : Opposite (parts x) (parts x') :=
  .of_valueOf (canonical_parts x) (canonical_parts x') h.left h.right h.value

theorem of_parts (h : Opposite (SolidModel.parts x) (SolidModel.parts x')) : Mirrored x x' :=
  ⟨h.isFinite.1, h.isFinite.2, h.value⟩

/-- Results that are opposite taken apart are opposite as floats. -/
theorem of_stored {u u' : UnpackedFloat} (hx : SolidModel.parts x = SolidModel.stored u)
    (hx' : SolidModel.parts x' = SolidModel.stored u') (h : Opposite u u') (hu : Canonical u)
    (hfinite : x.isFinite = true) : Mirrored x x' := by
  rw [isFinite_eq_parts, hx] at hfinite
  have hstored := h.stored hu (fits_of_isFinite_stored hfinite)
  rw [← hx, ← hx'] at hstored
  exact of_parts hstored

theorem add (hx : Mirrored x x') (hy : Mirrored y y') (hfinite : (x + y).isFinite = true) :
    Mirrored (x + y) (x' + y') :=
  of_stored (parts_add x y) (parts_add x' y') (hx.parts.add hy.parts)
    (rounds_add_parts (canonical_parts x) (canonical_parts y) hx.left hy.left).1 hfinite

theorem sub (hx : Mirrored x x') (hy : Mirrored y y') (hfinite : (x - y).isFinite = true) :
    Mirrored (x - y) (x' - y') :=
  of_stored (parts_sub x y) (parts_sub x' y') (hx.parts.sub hy.parts)
    (rounds_sub_parts (canonical_parts x) (canonical_parts y) hx.left hy.left).1 hfinite

theorem mul (hx : Mirrored x x') (hfinite : (x * y).isFinite = true) :
    Mirrored (x * y) (x' * y) := by
  have hy := (isFinite_of_mul hfinite).2
  exact of_stored (parts_mul x y) (parts_mul x' y) (hx.parts.mul hy)
    (rounds_mul_parts (canonical_parts x) (canonical_parts y) hx.left hy).1 hfinite

theorem mul_left (hy : Mirrored y y') (hfinite : (x * y).isFinite = true) :
    Mirrored (x * y) (x * y') := by
  have hx := (isFinite_of_mul hfinite).1
  exact of_stored (parts_mul x y) (parts_mul x y') (hy.parts.mul_left hx)
    (rounds_mul_parts (canonical_parts x) (canonical_parts y) hx hy.left).1 hfinite

theorem div (hx : Mirrored x x') (hy : y.isFinite = true) (hne : SolidModel.value y ≠ 0)
    (hfinite : (x / y).isFinite = true) : Mirrored (x / y) (x' / y) :=
  of_stored (parts_div x y) (parts_div x' y) (hx.parts.div hy hne)
    (rounds_div_parts (canonical_parts x) (canonical_parts y) hx.left hy hne).1 hfinite

end Mirrored

/-- A float is a multiple of a unit that its size tells. -/
theorem exists_value_eq_mul (x : Float) {n : ℤ} (h : 2 ^ n ≤ |value x|) :
    ∃ q : ℤ, value x = q * 2 ^ (n - 52) := by
  have hform := canonical_parts x
  have hnonzero : value x ≠ 0 := abs_pos.mp ((zpow_pos two_pos n).trans_le h)
  unfold value at h hnonzero ⊢
  cases hx : parts x with
  | notANumber => exact absurd rfl (hx ▸ hnonzero)
  | infinity s => exact absurd rfl (hx ▸ hnonzero)
  | zero s => exact absurd rfl (hx ▸ hnonzero)
  | finite s m e hm =>
      rw [hx] at h hform
      rw [valueOf, abs_mul, abs_signFactor, one_mul, abs_of_pos (mul_two_zpow_pos hm e)] at h
      -- A mantissa has fifty-three digits at most, so that the exponent cannot be any smaller.
      have hm' : (m : ℝ) < 2 ^ (53 : ℤ) := by exact_mod_cast hform.1
      have hlt : (2 : ℝ) ^ n < 2 ^ (53 + e) := by
        rw [zpow_add₀ two_ne_zero]
        exact h.trans_lt (mul_lt_mul_of_pos_right hm' (zpow_pos two_pos e))
      have hexponent := (zpow_lt_zpow_iff_right₀ (one_lt_two (α := ℝ))).mp hlt
      obtain ⟨k, hk⟩ := Int.eq_ofNat_of_zero_le (by omega : 0 ≤ e - (n - 52))
      refine ⟨s.apply (m * 2 ^ k : ℕ), ?_⟩
      rw [valueOf, cast_apply, mul_assoc, show e = k + (n - 52) by omega, zpow_add₀ two_ne_zero,
        zpow_natCast]
      push_cast
      ring

/-- A float can be counted from one on if its unit is no larger than one. -/
theorem exists_value_eq_one_add (x : Float) {n : ℤ} (hn : n ≤ 0) (h : 2 ^ n ≤ |value x|) :
    ∃ k : ℤ, value x = 1 + k * 2 ^ (n - 52) := by
  rcases exists_value_eq_mul x h with ⟨q, hq⟩
  obtain ⟨c, hc⟩ := Int.eq_ofNat_of_zero_le (by omega : 0 ≤ 52 - n)
  have hone : ((2 ^ c : ℕ) : ℝ) * 2 ^ (n - 52) = 1 := by
    rw [Nat.cast_pow, Nat.cast_ofNat, ← zpow_natCast, ← zpow_add₀ two_ne_zero,
      show (c : ℤ) + (n - 52) = 0 by omega, zpow_zero]
  refine ⟨q - (2 ^ c : ℕ), ?_⟩
  rw [hq, ← hone, Int.cast_sub, Int.cast_natCast]
  ring

/-- Every float is a multiple of the least one. -/
theorem exists_value_eq_mul_least (x : Float) : ∃ q : ℤ, value x = q * 2 ^ (-1074 : ℤ) := by
  rcases rounds_value x with ⟨t, q, hv, _, hleast, _⟩
  obtain ⟨k, hk⟩ := Int.eq_ofNat_of_zero_le (by omega : 0 ≤ t - -1074)
  refine ⟨q * 2 ^ k, ?_⟩
  rw [hv, show t = k + -1074 by omega, zpow_add₀ two_ne_zero, zpow_natCast]
  push_cast
  ring

/-- Multiples of a unit that are not even half a unit apart are the same. -/
theorem eq_of_abs_sub_le_half {p q : ℤ} {unit : ℝ} (hunit : 0 < unit)
    (h : |p * unit - q * unit| ≤ unit / 2) : (p : ℝ) * unit = q * unit := by
  rw [← sub_mul, abs_mul, abs_of_pos hunit] at h
  have hclose : |((p - q : ℤ) : ℝ)| < 1 := by
    push_cast
    nlinarith
  have hzero : p - q = 0 := Int.abs_lt_one_iff.mp (by exact_mod_cast hclose)
  rw [Int.sub_eq_zero.mp hzero]

/-- The error is half a unit of the numbers below the next power of two. -/
theorem Rounds.abs_sub_le_half {r v : ℝ} (h : Rounds r v) {n : ℤ} (hn : -1022 ≤ n)
    (hr : |r| < 2 ^ (n + 1)) : |v - r| ≤ 2 ^ (n - 52) / 2 := by
  rcases h with ⟨t, q, _, hnear, _, hlow⟩
  have ht : t ≤ n - 52 := by
    rcases hlow with hleast | hlow
    · omega
    · have h := (zpow_lt_zpow_iff_right₀ (one_lt_two (α := ℝ))).mp (hlow.trans_lt hr)
      omega
  have hunit : (2 : ℝ) ^ t ≤ 2 ^ (n - 52) := zpow_le_zpow_right₀ one_le_two ht
  linarith

/-- What is a float already is not rounded. -/
theorem Rounds.eq_value {x : Float} {v : ℝ} (h : Rounds (value x) v) : v = value x := by
  rcases h with ⟨t, q, hv, hnear, _, hlow⟩
  have hmultiple : ∃ p : ℤ, value x = p * 2 ^ t := by
    rcases hlow with hleast | hlow
    · rw [hleast]
      exact exists_value_eq_mul_least x
    · have h := exists_value_eq_mul x hlow
      rwa [show t + 52 - 52 = t by ring] at h
  obtain ⟨p, hp⟩ := hmultiple
  rw [hv, hp] at hnear ⊢
  exact eq_of_abs_sub_le_half (zpow_pos two_pos t) hnear

end SolidModel
