import Mathlib
import SolidModel.Decimal.Shortest
import SolidModel.Proofs.Decimal.Scaled

/-!
# Rounding Half to Even

What it is for a number to be rounded, whoever rounds it.

The library rounds a ratio of naturals by the remainder of its division. Here a real number is
rounded by its distance from whole numbers, and both come to the same. A number rounded to some
significant digits is the multiple of a power of ten nearest to it, and which power that is depends
on where the leading digit of the number stands, before it is rounded.

A number below a whole number is rounded to no more than that. That is all it takes to see how many
digits a rounded number has.

## Main definitions

* `NearestEven`: A whole number is the nearest one, and even if there are two.
* `halfEven`: The number rounded to a whole number.
* `significant`: The number rounded to some significant digits.
* `Decimal.value`: The number that a decimal says.

## Theorems

* `nearestEven_halfEven`, `NearestEven.unique`: A number has one rounding.
* `NearestEven.le_of_le`, `NearestEven.ge_of_ge`: Rounding does not pass a whole number.
* `halfEven_div`: The quotient that the library computes.
* `Word.leadingOf_eq_log`: Where the leading digit of a ratio stands.
-/

namespace SolidModel

/-- A whole number is nearest to the number, and even if another one is as near. -/
structure NearestEven (v : ℝ) (n : ℤ) : Prop where
  /-- No whole number is nearer. -/
  near : |v - n| ≤ 1 / 2
  /-- If another whole number is as near, this is the even one of the two. -/
  even : |v - n| = 1 / 2 → Even n

/-- The number rounded to the nearer of its two neighbours, and in the middle to the even one. -/
noncomputable def halfEven (v : ℝ) : ℤ :=
  if Int.fract v < 1 - Int.fract v then ⌊v⌋
  else if 1 - Int.fract v < Int.fract v then ⌊v⌋ + 1
  else ⌊v⌋ + ⌊v⌋ % 2

/-- The number rounded half to even to `count` significant digits. With the leading digit at
    `10 ^ e`, that is to a multiple of `10 ^ (e - count + 1)`. A number that is carried into a new
    digit has one more digit than it was rounded to, and the last one is a zero. -/
noncomputable def significant (count : ℕ) (v : ℝ) : ℝ :=
  let g := Int.log 10 |v| - count + 1
  halfEven (v / 10 ^ g) * 10 ^ g

/-- The number that a decimal says. -/
noncomputable def Decimal.value (d : Decimal) : ℝ := d.digits * 10 ^ d.exponent

theorem even_add_mod_two (n : ℤ) : Even (n + n % 2) := by
  rw [Int.even_iff]
  omega

theorem nearestEven_halfEven (v : ℝ) : NearestEven v (halfEven v) := by
  have hfract : v = ⌊v⌋ + Int.fract v := (Int.floor_add_fract v).symm
  have hpos : 0 ≤ Int.fract v := Int.fract_nonneg v
  have hlt : Int.fract v < 1 := Int.fract_lt_one v
  unfold halfEven
  -- Below the middle it is the floor that is nearest, and above the middle the next number.
  by_cases hlow : Int.fract v < 1 - Int.fract v
  · have hdist : |v - ⌊v⌋| = Int.fract v := abs_of_nonneg hpos
    rw [if_pos hlow]
    exact ⟨by linarith, fun h => absurd h (by linarith)⟩
  · rw [if_neg hlow]
    by_cases hhigh : 1 - Int.fract v < Int.fract v
    · have hdist : |v - ((⌊v⌋ + 1 : ℤ) : ℝ)| = 1 - Int.fract v := by
        push_cast
        rw [abs_of_nonpos (by linarith)]
        linarith
      rw [if_pos hhigh]
      exact ⟨by linarith, fun h => absurd h (by linarith)⟩
    · -- In the middle both neighbours are equally near, so it is enough that this one is even.
      have hhalf : Int.fract v = 1 / 2 := by linarith
      rw [if_neg hhigh]
      refine ⟨?_, fun _ => even_add_mod_two _⟩
      rcases Int.emod_two_eq_zero_or_one ⌊v⌋ with h | h
      · rw [h, abs_le]
        push_cast
        constructor <;> linarith
      · rw [h, abs_le]
        push_cast
        constructor <;> linarith

namespace NearestEven

variable {v : ℝ} {m n : ℤ}

/-- A number that is not below a whole number is not rounded below it. -/
theorem ge_of_ge (h : NearestEven v n) (hm : (m : ℝ) ≤ v) : m ≤ n := by
  have hnear := (abs_le.mp h.near).2
  by_contra hlt
  have hcast : (n : ℝ) + 1 ≤ m := by exact_mod_cast not_le.mp hlt
  linarith

/-- A number that is not above a whole number is not rounded above it. -/
theorem le_of_le (h : NearestEven v n) (hm : v ≤ m) : n ≤ m := by
  have hnear := (abs_le.mp h.near).1
  by_contra hlt
  have hcast : (m : ℝ) + 1 ≤ n := by exact_mod_cast not_le.mp hlt
  linarith

/-- A number has one rounding. Two nearest whole numbers would be neighbours with the number halfway
    between them, and only one of two neighbours is even. -/
theorem unique (hm : NearestEven v m) (hn : NearestEven v n) : m = n := by
  wlog hle : m ≤ n generalizing m n
  · exact (this hn hm (by omega)).symm
  have hlow := abs_le.mp hm.near
  have hhigh := abs_le.mp hn.near
  have hsucc : n ≤ m + 1 := by
    have : (n : ℝ) ≤ m + 1 := by linarith
    exact_mod_cast this
  by_contra hne
  -- Two roundings would be neighbours with the number in their middle, and both even.
  have heq : n = m + 1 := by omega
  rw [heq] at hhigh
  push_cast at hhigh
  have hmiddle : v - m = 1 / 2 := by linarith
  have hmeven : Even m := hm.even (by rw [hmiddle]; norm_num)
  have hneven : Even n := hn.even (by
    rw [heq, abs_eq (by norm_num)]
    push_cast
    exact Or.inr (by linarith))
  rw [heq] at hneven
  rw [Int.even_iff] at hmeven hneven
  omega

theorem eq_halfEven (h : NearestEven v n) : n = halfEven v := h.unique (nearestEven_halfEven v)

/-- What is closer to a whole number than a half is rounded to it. -/
theorem of_lt (h : |v - n| < 1 / 2) : NearestEven v n :=
  ⟨le_of_lt h, fun heq => absurd heq (ne_of_lt h)⟩

theorem neg (h : NearestEven v n) : NearestEven (-v) (-n) := by
  have hdist : |-v - ((-n : ℤ) : ℝ)| = |v - n| := by
    push_cast
    rw [neg_sub_neg, abs_sub_comm]
  refine ⟨by rw [hdist]; exact h.near, fun heq => ?_⟩
  rw [hdist] at heq
  exact (h.even heq).neg

end NearestEven

/-- Rounding does not depend on the sign. -/
theorem significant_neg (count : ℕ) (v : ℝ) : significant count (-v) = -significant count v := by
  have hneg (w : ℝ) : halfEven (-w) = -halfEven w := (nearestEven_halfEven w).neg.eq_halfEven.symm
  simp only [significant, abs_neg, neg_div, hneg, Int.cast_neg, neg_mul]

/-- The quotient that the library computes is the rounded quotient. The one is computed from the
    remainder in whole numbers, and the other one is said of real numbers. -/
theorem halfEven_div (num : ℕ) {den : ℕ} (hden : 0 < den) :
    halfEven ((num : ℝ) / den) = roundDiv num den := by
  have hpos : (0 : ℝ) < den := by exact_mod_cast hden
  have hfloor : ⌊(num : ℝ) / den⌋ = (num / den : ℕ) := by
    rw [← Int.natCast_floor_eq_floor (by positivity), Nat.floor_div_eq_div]
  have hfract : Int.fract ((num : ℝ) / den) = (num % den : ℕ) / den :=
    Int.fract_div_natCast_eq_div_natCast_mod
  -- The remainder and what it lacks of the denominator are the distances from the neighbours.
  have hlow : Int.fract ((num : ℝ) / den) < 1 - Int.fract ((num : ℝ) / den) ↔
      2 * (num % den) < den := by
    rw [hfract, lt_sub_iff_add_lt, ← add_div, div_lt_one hpos, ← two_mul]
    exact_mod_cast Iff.rfl
  have hhigh : 1 - Int.fract ((num : ℝ) / den) < Int.fract ((num : ℝ) / den) ↔
      den < 2 * (num % den) := by
    rw [hfract, sub_lt_iff_lt_add, ← add_div, one_lt_div hpos, ← two_mul]
    exact_mod_cast Iff.rfl
  rw [halfEven, hfloor, if_congr hlow rfl (if_congr hhigh rfl rfl), roundDiv]
  rcases Nat.lt_trichotomy (2 * (num % den)) den with hlt | heq | hgt
  · rw [if_pos hlt, Nat.compare_eq_lt.mpr hlt]
  · rw [if_neg (by omega), if_neg (by omega), Nat.compare_eq_eq.mpr heq]
    push_cast
    rfl
  · rw [if_neg (by omega), if_pos hgt, Nat.compare_eq_gt.mpr hgt]
    push_cast
    rfl

/-! ## Leading digits -/

/-- The leading digit stands at the greatest power of ten that is not above the number. -/
theorem log_ten_eq {v : ℝ} {e : ℤ} (hlow : 10 ^ e ≤ v) (hhigh : v < 10 ^ (e + 1)) :
    Int.log 10 v = e := by
  have hpos : 0 < v := lt_of_lt_of_le (by positivity) hlow
  have hge : e ≤ Int.log 10 v :=
    (Int.zpow_le_iff_le_log (by norm_num) hpos).mp (by exact_mod_cast hlow)
  have hlt : Int.log 10 v < e + 1 :=
    (Int.lt_zpow_iff_log_lt (by norm_num) hpos).mp (by exact_mod_cast hhigh)
  omega

/-- A number has as many digits as there are powers of ten up to it. -/
theorem length_toDigits_eq {n k : ℕ} (hlow : 10 ^ k ≤ n) (hhigh : n < 10 ^ (k + 1)) :
    (Nat.toDigits 10 n).length = k + 1 := by
  have hle := (Nat.length_toDigits_le_iff (b := 10) (by decide) (Nat.succ_pos k)).mpr hhigh
  by_contra hne
  rcases Nat.eq_zero_or_pos k with rfl | hk
  · have hpos : 0 < (Nat.toDigits 10 n).length := Nat.length_toDigits_pos
    omega
  · have hlt := (Nat.length_toDigits_le_iff (b := 10) (n := n) (by decide) hk).mp (by omega)
    omega

/-- The powers of ten around a number have its digits, less one and in full. -/
theorem pow_le_of_length_toDigits {n : ℕ} (hn : 0 < n) :
    ∃ k, (Nat.toDigits 10 n).length = k + 1 ∧ 10 ^ k ≤ n ∧ n < 10 ^ (k + 1) := by
  have hlow : 10 ^ Nat.log 10 n ≤ n := Nat.pow_log_le_self 10 hn.ne'
  have hhigh : n < 10 ^ (Nat.log 10 n + 1) := Nat.lt_pow_succ_log_self (by decide) n
  exact ⟨Nat.log 10 n, length_toDigits_eq hlow hhigh, hlow, hhigh⟩

/-- Where the leading digit of a ratio stands. It is found by counting the digits of a quotient, and
    is what a logarithm rounded down says. -/
theorem Word.leadingOf_eq_log {num den : ℕ} (hnum : 0 < num) (hden : 0 < den) :
    leadingOf num den = Int.log 10 ((num : ℝ) / den) := by
  have hpos : (0 : ℝ) < den := by exact_mod_cast hden
  have hnumpos : (0 : ℝ) < num := by exact_mod_cast hnum
  rw [eq_comm, leadingOf]
  split
  · next hle =>
      -- The whole part of the ratio has as many digits as the ratio has before the point.
      obtain ⟨k, hk, hlow, hhigh⟩ := pow_le_of_length_toDigits (Nat.div_pos hle hden)
      rw [Nat.le_div_iff_mul_le hden] at hlow
      rw [Nat.div_lt_iff_lt_mul hden] at hhigh
      rw [hk, Nat.cast_add_one, add_sub_cancel_right]
      refine log_ten_eq ?_ ?_
      · rw [zpow_natCast, le_div_iff₀ hpos]
        exact_mod_cast hlow
      · rw [← Nat.cast_add_one, zpow_natCast, div_lt_iff₀ hpos]
        exact_mod_cast hhigh
  · next hlt =>
      have hinverse : 0 < (den - 1) / num := Nat.div_pos (by omega) hnum
      obtain ⟨k, hk, hlow, hhigh⟩ := pow_le_of_length_toDigits hinverse
      rw [Nat.le_div_iff_mul_le hnum] at hlow
      rw [Nat.div_lt_iff_lt_mul hnum] at hhigh
      have hlow' : 10 ^ k * num < den := by omega
      have hhigh' : den ≤ 10 ^ (k + 1) * num := by omega
      rw [hk]
      refine log_ten_eq ?_ ?_
      · rw [zpow_neg, zpow_natCast, inv_le_comm₀ (by positivity) (by positivity), inv_div,
          div_le_iff₀ hnumpos]
        exact_mod_cast hhigh'
      · rw [Nat.cast_add_one, neg_add_rev, neg_add_cancel_comm, zpow_neg, zpow_natCast,
          lt_inv_comm₀ (by positivity) (by positivity), inv_div, lt_div_iff₀ hnumpos]
        exact_mod_cast hlow'

end SolidModel
