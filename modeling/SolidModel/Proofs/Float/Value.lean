import SolidModel.Proofs.Float.Packing

/-!
# Floats as Numbers

Arithmetic on finite floats is rounded arithmetic on real numbers.

A finite float stands for a number, its value. The value of a sum, a difference or a product is the
rounded sum, difference or product of the values, as long as this does not run out of range, and
floats that are finite compare as their values do. This is all that is used of floats by whoever
measures how far a computation is from the exact one.

## Main definitions

* `value`: The number that a float stands for.

## Theorems

* `rounds_add`, `rounds_sub`, `rounds_mul`: Arithmetic is rounded arithmetic.
* `value_abs`, `value_neg`: What is exact.
* `le_iff_value_le`, `lt_iff_value_lt`: Comparison.
-/

namespace SolidModel

open Float.Model UnpackedFloat

/-- The number that a float stands for, zero if it is not finite. -/
noncomputable def value (x : Float) : ℝ := valueOf (parts x)

theorem value_zero : value 0.0 = 0 := by
  have hparts : parts 0.0 = .zero .positive := rfl
  rw [value, hparts]
  rfl

theorem value_one : value 1.0 = 1 := by
  have hparts : parts 1.0 = .finite .positive (2 ^ 52) (-52) (by decide) := rfl
  rw [value, hparts, valueOf, signFactor]
  norm_num

/-- A finite number with a mantissa of the right length is its own rounding. -/
theorem rounds_valueOf {u : UnpackedFloat} (hu : Canonical u) : Rounds (valueOf u) (valueOf u) := by
  have hzero : Rounds 0 0 := by
    refine ⟨-1074, 0, by rw [Int.cast_zero, zero_mul], ?_, le_refl _, Or.inl rfl⟩
    rw [sub_zero, abs_zero]
    positivity
  cases u with
  | notANumber => exact hzero
  | infinity s => exact hzero
  | zero s => exact hzero
  | finite s m e hm =>
      rcases hu with ⟨_, hleast, hform⟩
      refine Rounds.signed ⟨e, m, by rw [Int.cast_natCast], ?_, hleast, ?_⟩ s
      · rw [sub_self, abs_zero]
        positivity
      · rcases hform with hlow | heq
        · refine Or.inr ?_
          have hlow' : (2 : ℝ) ^ (52 : ℤ) ≤ m := by exact_mod_cast hlow
          rw [add_comm, zpow_add₀ two_ne_zero, abs_of_nonneg (by positivity)]
          exact mul_le_mul_of_nonneg_right hlow' (by positivity)
        · exact Or.inl heq

theorem rounds_value (x : Float) : Rounds (value x) (value x) := rounds_valueOf (canonical_parts x)

/-- A result that is rounded taken apart is rounded as a float, if it does not run out of range. -/
theorem rounds_of_parts {z : Float} {u : UnpackedFloat} (hz : parts z = stored u) {r : ℝ}
    (hu : Canonical u ∧ u.isFinite = true ∧ Rounds r (valueOf u)) (hr : |r| ≤ 2 ^ (1023 : ℤ)) :
    z.isFinite = true ∧ Rounds r (value z) := by
  have hstored := stored_eq_self hu.1 (hu.2.2.fits hu.1 hr)
  rw [isFinite_eq_parts, value, hz, hstored]
  exact hu.2

/-- The same for a result that is seen to be finite. -/
theorem rounds_of_isFinite {z : Float} {u : UnpackedFloat} (hz : parts z = stored u) {r : ℝ}
    (hu : Canonical u ∧ u.isFinite = true ∧ Rounds r (valueOf u)) (hfinite : z.isFinite = true) :
    Rounds r (value z) := by
  rw [isFinite_eq_parts, hz] at hfinite
  rw [value, hz, stored_eq_self hu.1 (fits_of_isFinite_stored hfinite)]
  exact hu.2.2

section Round

theorem log2_mul_two_pow {m : Nat} (hm : 0 < m) (n : Nat) : (m * 2 ^ n).log2 = m.log2 + n := by
  have hpos : m * 2 ^ n ≠ 0 := by positivity
  rw [Nat.log2_eq_iff hpos]
  constructor
  · rw [pow_add]
    exact Nat.mul_le_mul_right _ (Nat.log2_self_le hm.ne')
  · rw [show m.log2 + n + 1 = (m.log2 + 1) + n by omega, pow_add]
    exact Nat.mul_lt_mul_of_pos_right Nat.lt_log2_self (Nat.two_pow_pos n)

/-- A number without an accuracy is exact, and its digits may be extended as needed. -/
theorem rounds_round (s : Sign) {m : Nat} (hm : 0 < m) (e : ℤ) :
    Canonical (round Format.binary64 s m e) ∧ (round Format.binary64 s m e).isFinite = true ∧
      Rounds (signFactor s * (m * 2 ^ e)) (valueOf (round Format.binary64 s m e)) := by
  obtain ⟨n, hn⟩ : ∃ n : ℕ, (e - target m e).toNat = n := ⟨_, rfl⟩
  have hround : round Format.binary64 s m e =
      roundWithAccuracy Format.binary64 s (m * 2 ^ n) (e - n) .exact := by
    rw [← hn, ← Nat.shiftLeft_eq]
    rfl
  -- More digits at the end change neither the number nor where it is to be cut.
  have htarget : target (m * 2 ^ n) (e - n) = target m e := by
    unfold target
    rw [log2_mul_two_pow hm]
    congr 1
    push_cast
    ring
  have hexact : ((m * 2 ^ n : ℕ) : ℝ) * 2 ^ (e - (n : ℤ)) = m * 2 ^ e := by
    rw [zpow_sub₀ two_ne_zero, zpow_natCast]
    push_cast
    field_simp
  rw [hround, ← hexact]
  refine rounds_roundWithAccuracy s rfl ?_ (Or.inl (by positivity))
  rw [htarget]
  omega

/-- A signed whole number of units is rounded. -/
theorem rounds_normalize (m e : ℤ) (zeroSign : Sign) :
    Canonical (UnpackedFloat.normalize Format.binary64 m e zeroSign) ∧
      (UnpackedFloat.normalize Format.binary64 m e zeroSign).isFinite = true ∧
      Rounds (m * 2 ^ e) (valueOf (UnpackedFloat.normalize Format.binary64 m e zeroSign)) := by
  unfold UnpackedFloat.normalize
  -- The sign goes to the float, and the size is what is rounded.
  split
  · next h =>
      have hneg := Int.compare_eq_lt.mp h
      have hcast : ((-m).toNat : ℝ) = -m := by
        have h : (((-m).toNat : ℤ) : ℝ) = ((-m : ℤ) : ℝ) := by rw [Int.toNat_of_nonneg (by omega)]
        push_cast at h ⊢
        exact h
      have h := rounds_round .negative (m := (-m).toNat) (by omega) e
      rw [signFactor, hcast, neg_one_mul, neg_mul, neg_neg] at h
      exact h
  · next h =>
      rw [Int.compare_eq_eq.mp h, Int.cast_zero, zero_mul]
      exact ⟨trivial, rfl, rounds_valueOf (u := .zero zeroSign) trivial⟩
  · next h =>
      have hpos := Int.compare_eq_gt.mp h
      have hcast : (m.toNat : ℝ) = m := by
        have h : ((m.toNat : ℤ) : ℝ) = (m : ℝ) := by rw [Int.toNat_of_nonneg (by omega)]
        exact_mod_cast h
      have h := rounds_round .positive (m := m.toNat) (by omega) e
      rw [signFactor, hcast, one_mul] at h
      exact h

end Round

/-- A mantissa with more digits and a smaller exponent. -/
theorem cast_shiftLeft (m : Nat) {e e' : ℤ} (h : e' ≤ e) :
    ((m <<< (e - e').toNat : ℕ) : ℝ) * 2 ^ e' = m * 2 ^ e := by
  obtain ⟨n, hn⟩ := Int.eq_ofNat_of_zero_le (Int.sub_nonneg_of_le h)
  have he : e = e' + n := by omega
  rw [hn, Nat.shiftLeft_eq, he, zpow_add₀ two_ne_zero, Int.toNat_natCast, zpow_natCast]
  push_cast
  ring

theorem cast_apply (s : Sign) (m : ℤ) : ((s.apply m : ℤ) : ℝ) = signFactor s * m := by
  cases s with
  | positive => rw [Sign.apply, signFactor, one_mul]
  | negative => rw [Sign.apply, signFactor, neg_one_mul, Int.cast_neg]

/-- A sum taken apart. -/
theorem rounds_add_parts {u v : UnpackedFloat} (hu : Canonical u) (hv : Canonical v)
    (hfu : u.isFinite = true) (hfv : v.isFinite = true) :
    Canonical (add Format.binary64 u v) ∧ (add Format.binary64 u v).isFinite = true ∧
      Rounds (valueOf u + valueOf v) (valueOf (add Format.binary64 u v)) := by
  cases u with
  | notANumber => exact absurd hfu Bool.false_ne_true
  | infinity s => exact absurd hfu Bool.false_ne_true
  | zero s =>
      cases v with
      | notANumber => exact absurd hfv Bool.false_ne_true
      | infinity t => exact absurd hfv Bool.false_ne_true
      | zero t =>
          -- Whichever zeros are added, the sum is a zero.
          have h := rounds_valueOf (u := .zero .positive) trivial
          cases s <;> cases t <;> refine ⟨trivial, rfl, ?_⟩ <;>
            · change Rounds (0 + 0) 0
              rwa [add_zero]
      | finite t n f hn =>
          refine ⟨hv, rfl, ?_⟩
          change Rounds (0 + _) _
          rw [zero_add]
          exact rounds_valueOf hv
  | finite s m e hm =>
      cases v with
      | notANumber => exact absurd hfv Bool.false_ne_true
      | infinity t => exact absurd hfv Bool.false_ne_true
      | zero t =>
          refine ⟨hu, rfl, ?_⟩
          change Rounds (_ + 0) _
          rw [add_zero]
          exact rounds_valueOf hu
      | finite t n f hn =>
          -- At the smaller exponent the sum is exact, and only then is it rounded.
          have h := rounds_normalize
            (s.apply (m <<< (e - min e f).toNat : ℕ) + t.apply (n <<< (f - min e f).toNat : ℕ))
            (min e f) .positive
          rw [Int.cast_add, cast_apply, cast_apply, add_mul, mul_assoc, mul_assoc,
            Int.cast_natCast, Int.cast_natCast, cast_shiftLeft m (min_le_left e f),
            cast_shiftLeft n (min_le_right e f)] at h
          exact h

/-- A sum is rounded. It is finite if the exact sum stays a little below where finite floats end,
    and is then half a unit away from it at most. -/
theorem rounds_add {x y : Float} (hx : x.isFinite = true) (hy : y.isFinite = true)
    (h : |value x + value y| ≤ 2 ^ (1023 : ℤ)) :
    (x + y).isFinite = true ∧ Rounds (value x + value y) (value (x + y)) :=
  rounds_of_parts (parts_add x y)
    (rounds_add_parts (canonical_parts x) (canonical_parts y) hx hy) h

theorem valueOf_neg (u : UnpackedFloat) : valueOf u.neg = -valueOf u := by
  cases u with
  | notANumber => exact neg_zero.symm
  | infinity s => exact neg_zero.symm
  | zero s => exact neg_zero.symm
  | finite s m e hm =>
      cases s with
      | positive =>
          change -1 * ((m : ℝ) * 2 ^ e) = -(1 * (m * 2 ^ e))
          ring
      | negative =>
          change 1 * ((m : ℝ) * 2 ^ e) = -(-1 * (m * 2 ^ e))
          ring

theorem canonical_neg {u : UnpackedFloat} (h : Canonical u) : Canonical u.neg := by
  cases u <;> exact h

theorem fits_neg {u : UnpackedFloat} (h : Fits u) : Fits u.neg := by
  cases u <;> exact h

theorem apply_neg (s : Sign) (m : ℤ) : (-s).apply m = -s.apply m := by
  cases s with
  | positive => rfl
  | negative => exact (neg_neg m).symm

/-- To subtract is to add the opposite. -/
theorem sub_eq_add_neg_parts (u v : UnpackedFloat) :
    sub Format.binary64 u v = add Format.binary64 u v.neg := by
  cases u with
  | notANumber => rfl
  | infinity s => cases v <;> rfl
  | zero s => cases v <;> rfl
  | finite s m e hm =>
      cases v with
      | notANumber => rfl
      | infinity t => rfl
      | zero t => rfl
      | finite t n f hn =>
          simp only [UnpackedFloat.sub, UnpackedFloat.neg, UnpackedFloat.add, apply_neg,
            Int.sub_eq_add_neg]

/-- A difference taken apart. -/
theorem rounds_sub_parts {u v : UnpackedFloat} (hu : Canonical u) (hv : Canonical v)
    (hfu : u.isFinite = true) (hfv : v.isFinite = true) :
    Canonical (UnpackedFloat.sub Format.binary64 u v) ∧
      (UnpackedFloat.sub Format.binary64 u v).isFinite = true ∧
      Rounds (valueOf u - valueOf v) (valueOf (UnpackedFloat.sub Format.binary64 u v)) := by
  have hfinite : v.neg.isFinite = true := by cases v <;> exact hfv
  rw [sub_eq_add_neg_parts, sub_eq_add_neg, ← valueOf_neg]
  exact rounds_add_parts hu (canonical_neg hv) hfu hfinite

/-- A difference is rounded. -/
theorem rounds_sub {x y : Float} (hx : x.isFinite = true) (hy : y.isFinite = true)
    (h : |value x - value y| ≤ 2 ^ (1023 : ℤ)) :
    (x - y).isFinite = true ∧ Rounds (value x - value y) (value (x - y)) :=
  rounds_of_parts (parts_sub x y)
    (rounds_sub_parts (canonical_parts x) (canonical_parts y) hx hy) h

theorem signFactor_mul (s t : Sign) : signFactor (s * t) = signFactor s * signFactor t := by
  cases s with
  | positive => cases t <;> exact (one_mul _).symm
  | negative =>
      cases t with
      | positive => exact (mul_one _).symm
      | negative =>
          change (1 : ℝ) = -1 * -1
          norm_num

/-- The digits of a product are not too few. -/
theorem add_le_target {m n : Nat} (hm : 0 < m) (hn : 0 < n) {e f : ℤ}
    (hform : 2 ^ 52 ≤ m ∨ e = -1074) (hform' : 2 ^ 52 ≤ n ∨ f = -1074) :
    e + f ≤ target (m * n) (e + f) := by
  have hpos : m * n ≠ 0 := Nat.mul_ne_zero hm.ne' hn.ne'
  unfold target
  by_cases hlong : 2 ^ 52 ≤ m * n
  · have hlog := (Nat.le_log2 hpos).mpr hlong
    omega
  · -- Both factors are short, and so have the least exponent.
    have hm' : ¬ 2 ^ 52 ≤ m := fun h => hlong (h.trans (Nat.le_mul_of_pos_right m hn))
    have hn' : ¬ 2 ^ 52 ≤ n := fun h => hlong (h.trans (Nat.le_mul_of_pos_left n hm))
    have he := hform.resolve_left hm'
    have hf := hform'.resolve_left hn'
    omega

/-- A product taken apart. -/
theorem rounds_mul_parts {u v : UnpackedFloat} (hu : Canonical u) (hv : Canonical v)
    (hfu : u.isFinite = true) (hfv : v.isFinite = true) :
    Canonical (UnpackedFloat.mul Format.binary64 u v) ∧
      (UnpackedFloat.mul Format.binary64 u v).isFinite = true ∧
      Rounds (valueOf u * valueOf v) (valueOf (UnpackedFloat.mul Format.binary64 u v)) := by
  have hzero (s : Sign) : Rounds 0 (valueOf (.zero s)) := rounds_valueOf (u := .zero s) trivial
  cases u with
  | notANumber => exact absurd hfu Bool.false_ne_true
  | infinity s => exact absurd hfu Bool.false_ne_true
  | zero s =>
      rw [show valueOf (.zero s) = 0 from rfl, zero_mul]
      cases v with
      | notANumber => exact absurd hfv Bool.false_ne_true
      | infinity t => exact absurd hfv Bool.false_ne_true
      | zero t => exact ⟨trivial, rfl, hzero _⟩
      | finite t n f hn => exact ⟨trivial, rfl, hzero _⟩
  | finite s m e hm =>
      cases v with
      | notANumber => exact absurd hfv Bool.false_ne_true
      | infinity t => exact absurd hfv Bool.false_ne_true
      | zero t =>
          rw [show valueOf (.zero t) = 0 from rfl, mul_zero]
          exact ⟨trivial, rfl, hzero _⟩
      | finite t n f hn =>
          -- The product of the mantissas is exact, and it is rounded once.
          have hexact : valueOf (.finite s m e hm) * valueOf (.finite t n f hn) =
              signFactor (s * t) * ((m * n : ℕ) * 2 ^ (e + f)) := by
            rw [valueOf, valueOf, signFactor_mul, zpow_add₀ two_ne_zero]
            push_cast
            ring
          rw [hexact]
          exact rounds_roundWithAccuracy (s * t) rfl (add_le_target hm hn hu.2.2 hv.2.2)
            (Or.inl (Nat.mul_pos hm hn))

/-- A product is rounded. -/
theorem rounds_mul {x y : Float} (hx : x.isFinite = true) (hy : y.isFinite = true)
    (h : |value x * value y| ≤ 2 ^ (1023 : ℤ)) :
    (x * y).isFinite = true ∧ Rounds (value x * value y) (value (x * y)) :=
  rounds_of_parts (parts_mul x y)
    (rounds_mul_parts (canonical_parts x) (canonical_parts y) hx hy) h

theorem canonical_abs {u : UnpackedFloat} (h : Canonical u) : Canonical u.abs := by
  cases u <;> exact h

theorem fits_abs {u : UnpackedFloat} (h : Fits u) : Fits u.abs := by
  cases u <;> exact h

/-- An absolute value is exact. -/
theorem value_abs (x : Float) : value x.abs = |value x| := by
  rw [value, parts_abs, stored_eq_self (canonical_abs (canonical_parts x))
    (fits_abs (fits_parts x)), value]
  cases parts x with
  | notANumber => exact abs_zero.symm
  | infinity s => exact abs_zero.symm
  | zero s => exact abs_zero.symm
  | finite s m e hm =>
      have hpos : (0 : ℝ) ≤ m * 2 ^ e := by positivity
      rw [valueOf, abs_mul, abs_signFactor, one_mul, abs_of_nonneg hpos]
      exact one_mul _

theorem isFinite_abs (x : Float) : x.abs.isFinite = x.isFinite := by
  rw [isFinite_eq_parts, parts_abs,
    stored_eq_self (canonical_abs (canonical_parts x)) (fits_abs (fits_parts x)), isFinite_eq_parts]
  cases parts x <;> rfl

/-- The opposite is exact. -/
theorem value_neg (x : Float) : value (-x) = -value x := by
  have hparts : parts (-x) = stored (parts x).neg := rfl
  rw [value, hparts, stored_eq_self (canonical_neg (canonical_parts x)) (fits_neg (fits_parts x)),
    valueOf_neg, value]

theorem isFinite_neg (x : Float) : (-x).isFinite = x.isFinite := by
  have hparts : parts (-x) = stored (parts x).neg := rfl
  rw [isFinite_eq_parts, hparts,
    stored_eq_self (canonical_neg (canonical_parts x)) (fits_neg (fits_parts x)), isFinite_eq_parts]
  cases parts x <;> rfl

/-- An ordering tells how two numbers compare. -/
def Orders : Ordering → ℝ → ℝ → Prop
  | .lt, a, b => a < b
  | .eq, a, b => a = b
  | .gt, a, b => b < a

theorem Orders.swap {o : Ordering} {a b : ℝ} (h : Orders o a b) : Orders o.swap (-a) (-b) := by
  cases o with
  | lt => exact neg_lt_neg h
  | eq => exact congrArg Neg.neg h
  | gt => exact neg_lt_neg h

/-- A greater exponent makes a greater number. -/
theorem lt_of_exponent_lt {m n : Nat} {e f : ℤ} (hlt : m < 2 ^ 53) (hleast : -1074 ≤ e)
    (hform : 2 ^ 52 ≤ n ∨ f = -1074) (h : e < f) : (m : ℝ) * 2 ^ e < n * 2 ^ f := by
  have hn : ((2 : ℝ) ^ (52 : ℤ)) ≤ n := by exact_mod_cast hform.resolve_right (by omega)
  have hm : (m : ℝ) < 2 ^ (53 : ℤ) := by exact_mod_cast hlt
  calc (m : ℝ) * 2 ^ e < 2 ^ (53 : ℤ) * 2 ^ e := mul_lt_mul_of_pos_right hm (zpow_pos two_pos e)
    _ = 2 ^ (52 : ℤ) * 2 ^ (e + 1) := by
      rw [← zpow_add₀ two_ne_zero, ← zpow_add₀ two_ne_zero]
      congr 1
      omega
    _ ≤ 2 ^ (52 : ℤ) * 2 ^ f :=
      mul_le_mul_of_nonneg_left (zpow_le_zpow_right₀ one_le_two h) (by positivity)
    _ ≤ n * 2 ^ f := mul_le_mul_of_nonneg_right hn (by positivity)

/-- Mantissas of the right length compare by their exponents first. -/
theorem orders_finite {m n : Nat} {e f : ℤ} (hm : 0 < m) (hn : 0 < n)
    (hu : Canonical (.finite .positive m e hm)) (hv : Canonical (.finite .positive n f hn)) :
    Orders ((compare e f).then (compare m n)) (m * 2 ^ e) (n * 2 ^ f) := by
  rcases hu with ⟨hlt, hleast, hform⟩
  rcases hv with ⟨hlt', hleast', hform'⟩
  -- A larger exponent wins whatever the mantissas are, since they have their full length.
  rcases lt_trichotomy e f with h | h | h
  · rw [Int.compare_eq_lt.mpr h]
    exact lt_of_exponent_lt hlt hleast hform' h
  · rw [Int.compare_eq_eq.mpr h, ← h]
    have hunit : (0 : ℝ) < 2 ^ e := zpow_pos two_pos e
    rcases lt_trichotomy m n with h' | h' | h'
    · rw [Nat.compare_eq_lt.mpr h']
      exact mul_lt_mul_of_pos_right (Nat.cast_lt.mpr h') hunit
    · rw [Nat.compare_eq_eq.mpr h', h']
      rfl
    · rw [Nat.compare_eq_gt.mpr h']
      exact mul_lt_mul_of_pos_right (Nat.cast_lt.mpr h') hunit
  · rw [Int.compare_eq_gt.mpr h]
    exact lt_of_exponent_lt hlt' hleast' hform h

theorem mul_two_zpow_pos {m : Nat} (hm : 0 < m) (e : ℤ) : (0 : ℝ) < m * 2 ^ e :=
  mul_pos (Nat.cast_pos.mpr hm) (zpow_pos two_pos e)

/-- Numbers that are neither zero nor infinite compare by their signs first. -/
theorem orders_compare_finite {s t : Sign} {m n : Nat} {e f : ℤ} {hm : 0 < m} {hn : 0 < n}
    (hu : Canonical (.finite s m e hm)) (hv : Canonical (.finite t n f hn)) :
    ∃ o, (UnpackedFloat.finite s m e hm).compare (.finite t n f hn) = some o ∧
      Orders o (signFactor s * (m * 2 ^ e)) (signFactor t * (n * 2 ^ f)) := by
  have hm' := mul_two_zpow_pos hm e
  have hn' := mul_two_zpow_pos hn f
  have horders := orders_finite hm hn hu hv
  cases s with
  | positive =>
      cases t with
      | positive =>
          refine ⟨_, rfl, ?_⟩
          rw [signFactor, one_mul, one_mul]
          exact horders
      | negative => exact ⟨.gt, rfl, by rw [signFactor, signFactor, Orders]; linarith⟩
  | negative =>
      cases t with
      | positive => exact ⟨.lt, rfl, by rw [signFactor, signFactor, Orders]; linarith⟩
      | negative =>
          refine ⟨_, rfl, ?_⟩
          rw [signFactor, neg_one_mul, neg_one_mul]
          exact horders.swap

/-- Finite numbers compare as their values do. -/
theorem orders_compare {u v : UnpackedFloat} (hu : Canonical u) (hv : Canonical v)
    (hfu : u.isFinite = true) (hfv : v.isFinite = true) :
    ∃ o, u.compare v = some o ∧ Orders o (valueOf u) (valueOf v) := by
  have hfinite (s : Sign) (m : Nat) (e : ℤ) (hm : 0 < m) :
      valueOf (.finite s m e hm) = signFactor s * (m * 2 ^ e) := rfl
  have hzero (s : Sign) : valueOf (.zero s) = 0 := rfl
  -- A zero is compared by the sign of the other number, whatever its own sign is.
  cases u with
  | notANumber => exact absurd hfu Bool.false_ne_true
  | infinity s => exact absurd hfu Bool.false_ne_true
  | zero s =>
      cases v with
      | notANumber => exact absurd hfv Bool.false_ne_true
      | infinity t => exact absurd hfv Bool.false_ne_true
      | zero t => exact ⟨.eq, rfl, rfl⟩
      | finite t n f hn =>
          have hn' := mul_two_zpow_pos hn f
          cases t with
          | positive => exact ⟨.lt, rfl, by rw [hzero, hfinite, signFactor, Orders]; linarith⟩
          | negative => exact ⟨.gt, rfl, by rw [hzero, hfinite, signFactor, Orders]; linarith⟩
  | finite s m e hm =>
      cases v with
      | notANumber => exact absurd hfv Bool.false_ne_true
      | infinity t => exact absurd hfv Bool.false_ne_true
      | zero t =>
          have hm' := mul_two_zpow_pos hm e
          cases s with
          | positive => exact ⟨.gt, rfl, by rw [hzero, hfinite, signFactor, Orders]; linarith⟩
          | negative => exact ⟨.lt, rfl, by rw [hzero, hfinite, signFactor, Orders]; linarith⟩
      | finite t n f hn => exact orders_compare_finite hu hv

/-- Finite floats compare as their values do. The two zeros have one value, and compare as equal. -/
theorem le_iff_value_le {x y : Float} (hx : x.isFinite = true) (hy : y.isFinite = true) :
    x ≤ y ↔ value x ≤ value y := by
  rcases orders_compare (canonical_parts x) (canonical_parts y) hx hy with ⟨o, ho, horders⟩
  rw [le_iff_parts, UnpackedFloat.le, ho, value, value]
  cases o with
  | lt => exact iff_of_true rfl (le_of_lt horders)
  | eq => exact iff_of_true rfl (le_of_eq horders)
  | gt => exact iff_of_false Bool.false_ne_true (not_le_of_gt horders)

theorem lt_iff_value_lt {x y : Float} (hx : x.isFinite = true) (hy : y.isFinite = true) :
    x < y ↔ value x < value y := by
  rcases orders_compare (canonical_parts x) (canonical_parts y) hx hy with ⟨o, ho, horders⟩
  rw [lt_iff_parts, UnpackedFloat.lt, ho, value, value]
  cases o with
  | lt => exact iff_of_true rfl horders
  | eq => exact iff_of_false Bool.false_ne_true (fun h => absurd horders (ne_of_lt h))
  | gt => exact iff_of_false Bool.false_ne_true (not_lt_of_gt horders)

theorem beq_iff_value_eq {x y : Float} (hx : x.isFinite = true) (hy : y.isFinite = true) :
    (x == y) = true ↔ value x = value y := by
  rcases orders_compare (canonical_parts x) (canonical_parts y) hx hy with ⟨o, ho, horders⟩
  rw [beq_eq_parts, UnpackedFloat.beq, ho, value, value]
  cases o with
  | lt => exact iff_of_false Bool.false_ne_true (ne_of_lt horders)
  | eq => exact iff_of_true rfl horders
  | gt => exact iff_of_false Bool.false_ne_true (ne_of_gt horders)

/-- There is a smallest positive float. -/
theorem le_value_of_pos {x : Float} (h : 0 < value x) : 2 ^ (-1074 : ℤ) ≤ value x := by
  rcases rounds_value x with ⟨t, q, hv, _, hleast, _⟩
  have hunit : (0 : ℝ) < 2 ^ t := zpow_pos two_pos t
  rw [hv] at h ⊢
  have hq : (1 : ℝ) ≤ q := by
    exact_mod_cast (Int.cast_pos.mp (pos_of_mul_pos_left h hunit.le) : 0 < q)
  calc (2 : ℝ) ^ (-1074 : ℤ) ≤ 2 ^ t := zpow_le_zpow_right₀ one_le_two hleast
    _ = 1 * 2 ^ t := (one_mul _).symm
    _ ≤ q * 2 ^ t := mul_le_mul_of_nonneg_right hq hunit.le

end SolidModel
