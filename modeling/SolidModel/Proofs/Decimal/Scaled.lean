import SolidModel.Decimal.Scaled
import SolidModel.Proofs.Float.Class

/-!
# Numerals Are Finite

No numeral is read as an infinity.

Where a number could be too large, the readers check for it and give up. The one place without a
check is the division by a power of ten, which only makes numbers smaller, and begins with no more
digits than fit a machine word. Rounding goes up by at most one step each time, so that there is
much room between what a division can end with and the first word that is no number. The bounds
here are therefore coarse: all that is counted is the power of two a magnitude stays below.

## Theorems

* `Word.nearest_le`, `Word.le_nearest`: The word of a ratio between powers of two.
* `Word.units_lt`, `Word.le_units`: The units of a word between those of powers of two.
* `Word.scaleDown_lt_infinity`: What is divided by a power of ten stays finite.
* `Numeral.isFinite_of_scaled?`, `Decimal.isFinite_of_toFloat?`: What is read is finite.
-/

namespace SolidModel

theorem roundDiv_le (num den : Nat) : roundDiv num den ≤ num / den + 1 := by
  rw [roundDiv]
  split <;> omega

theorem le_roundDiv (num den : Nat) : num / den ≤ roundDiv num den := by
  rw [roundDiv]
  split <;> omega

namespace Word

/-- A ratio below a power of two has a word below that of the power. -/
theorem nearest_le {num den k : Nat} (h : num * unitsPerOne / den < 2 ^ (k + 53)) :
    nearest num den ≤ (k + 2) * 2 ^ 52 := by
  let units := num * unitsPerOne / den
  let spacing := units.log2 - 52
  have hspacing : spacing ≤ k := by
    by_cases hzero : units = 0
    · change units.log2 - 52 ≤ k
      rw [hzero]
      exact Nat.zero_le k
    · have : units.log2 < k + 53 := (Nat.log2_lt hzero).mpr h
      omega
  -- The mantissa is below its first power of two, if perhaps by rounding not less than it.
  have hmantissa : units / 2 ^ spacing < 2 ^ 53 := by
    rw [Nat.div_lt_iff_lt_mul (Nat.two_pow_pos spacing), ← Nat.pow_add]
    exact Nat.lt_of_lt_of_le Nat.lt_log2_self (Nat.pow_le_pow_right Nat.two_pos (by omega))
  have hround := roundDiv_le (num * unitsPerOne) (den * 2 ^ spacing)
  rw [← Nat.div_div_eq_div_mul] at hround
  calc nearest num den
      = spacing * 2 ^ 52 + roundDiv (num * unitsPerOne) (den * 2 ^ spacing) := rfl
    _ ≤ k * 2 ^ 52 + 2 ^ 53 :=
        Nat.add_le_add (Nat.mul_le_mul_right _ hspacing) (Nat.le_trans hround hmantissa)
    _ = (k + 2) * 2 ^ 52 := by omega

theorem mantissa_lt (word : Nat) : mantissa word < 2 ^ 53 := by
  have hmod : word % Nat.pow 2 52 < Nat.pow 2 52 := Nat.mod_lt _ (Nat.two_pow_pos 52)
  have hpow : Nat.pow 2 52 + Nat.pow 2 52 = 2 ^ 53 := by decide
  rw [mantissa]
  split <;> omega

/-- A word up to that of a power of two has no more units than the power. -/
theorem units_lt {word k : Nat} (h : word ≤ (k + 2) * 2 ^ 52) :
    units word < 2 ^ (k + 1 + 53) := by
  have hfield : field word ≤ k + 2 := by
    change word / 2 ^ 52 ≤ k + 2
    omega
  calc units word
      < 2 ^ 53 * 2 ^ (field word - 1) :=
        Nat.mul_lt_mul_of_pos_right (mantissa_lt word) (Nat.two_pow_pos _)
    _ = 2 ^ (53 + (field word - 1)) := (Nat.pow_add 2 _ _).symm
    _ ≤ 2 ^ (k + 1 + 53) := Nat.pow_le_pow_right Nat.two_pos (by omega)

/-- A ratio from a power of two on has a word from that of the power on. -/
theorem le_nearest {num den k : Nat} (h : 2 ^ (k + 52) ≤ num * unitsPerOne / den) :
    (k + 1) * 2 ^ 52 ≤ nearest num den := by
  let units := num * unitsPerOne / den
  let spacing := units.log2 - 52
  have hzero : units ≠ 0 := Nat.ne_of_gt (Nat.lt_of_lt_of_le (Nat.two_pow_pos _) h)
  have hlog : k + 52 ≤ units.log2 := (Nat.le_log2 hzero).mpr h
  have hspacing : k ≤ spacing := Nat.le_sub_of_add_le hlog
  have hmantissa : 2 ^ 52 ≤ units / 2 ^ spacing := by
    have hsum : 52 + spacing = units.log2 := by omega
    rw [Nat.le_div_iff_mul_le (Nat.two_pow_pos spacing), ← Nat.pow_add, hsum]
    exact Nat.log2_self_le hzero
  have hround := le_roundDiv (num * unitsPerOne) (den * 2 ^ spacing)
  rw [← Nat.div_div_eq_div_mul] at hround
  calc (k + 1) * 2 ^ 52
      = k * 2 ^ 52 + 2 ^ 52 := Nat.succ_mul k _
    _ ≤ spacing * 2 ^ 52 + roundDiv (num * unitsPerOne) (den * 2 ^ spacing) :=
        Nat.add_le_add (Nat.mul_le_mul_right _ hspacing) (Nat.le_trans hmantissa hround)
    _ = nearest num den := rfl

/-- A word from that of a power of two on has no fewer units than the power. -/
theorem le_units {word k : Nat} (h : (k + 1) * 2 ^ 52 ≤ word) : 2 ^ (52 + k) ≤ units word := by
  have hfield : k + 1 ≤ field word := (Nat.le_div_iff_mul_le (Nat.two_pow_pos 52)).mpr h
  have hmantissa : 2 ^ 52 ≤ mantissa word := by
    rw [mantissa, if_neg (by omega)]
    exact Nat.le_add_right _ _
  calc 2 ^ (52 + k)
      = 2 ^ 52 * 2 ^ k := Nat.pow_add 2 52 k
    _ ≤ 2 ^ 52 * 2 ^ (field word - 1) :=
        Nat.mul_le_mul_left _ (Nat.pow_le_pow_right Nat.two_pos (by omega))
    _ ≤ units word := Nat.mul_le_mul_right _ hmantissa

/-- No power of ten is less than one. -/
theorem unitsPerOne_le_units_powerOfTen (n : Nat) : unitsPerOne ≤ units (powerOfTen n) := by
  have hone : unitsPerOne = 2 ^ (52 + 1022) := by decide +kernel
  rw [hone]
  refine le_units (le_nearest ?_)
  rw [Nat.add_comm, ← hone, Nat.div_one]
  exact Nat.le_mul_of_pos_left _ (Nat.pow_pos (by decide))

/-- Dividing by a power of ten makes nothing larger, up to rounding. -/
theorem per_powerOfTen_le {word k : Nat} (h : units word < 2 ^ (k + 53)) (n : Nat) :
    per word (powerOfTen n) ≤ (k + 2) * 2 ^ 52 := by
  have hpos : 0 < unitsPerOne := by decide +kernel
  refine nearest_le (Nat.lt_of_le_of_lt ?_ h)
  calc units word * unitsPerOne / units (powerOfTen n)
      ≤ units word * unitsPerOne / unitsPerOne :=
        Nat.div_le_div_left (unitsPerOne_le_units_powerOfTen n) hpos
    _ = units word := Nat.mul_div_cancel _ hpos

-- Each of at most two divisions costs the bound one power of two, for what rounding may add.
theorem scaleDown_le {word k : Nat} (h : units word < 2 ^ (k + 53)) (n : Nat) :
    scaleDown word n ≤ (k + 3) * 2 ^ 52 := by
  rw [scaleDown]
  split
  · exact Nat.le_trans (per_powerOfTen_le h n) (Nat.mul_le_mul_right _ (by omega))
  · split
    · -- The first division is by the highest power, the second by what is left of it.
      have hfirst := units_lt (per_powerOfTen_le h maxPower)
      exact Nat.le_trans (per_powerOfTen_le hfirst _) (Nat.mul_le_mul_right _ (by omega))
    · exact Nat.zero_le _

/-- A machine word of digits that is divided by a power of ten stays finite. It is divided in
    several steps if the power is too large for one, and gets no larger in any of them. -/
theorem scaleDown_lt_infinity {digits : Nat} (h : digits < UInt64.size) (n : Nat) :
    scaleDown (nearest digits 1) n < infinity := by
  have hpos : 0 < unitsPerOne := by decide +kernel
  have hdigits : digits * unitsPerOne / 1 < 2 ^ (1085 + 53) := by
    rw [Nat.div_one]
    calc digits * unitsPerOne < UInt64.size * unitsPerOne := Nat.mul_lt_mul_of_pos_right h hpos
      _ = 2 ^ (1085 + 53) := by decide +kernel
  have hbound : (1085 + 1 + 3) * 2 ^ 52 < infinity := by decide
  exact Nat.lt_of_le_of_lt (scaleDown_le (units_lt (nearest_le hdigits)) n) hbound

theorem scaleUp?_lt_infinity {word n product : Nat} (h : scaleUp? word n = some product) :
    product < infinity := by
  unfold scaleUp? at h
  split at h
  · rw [← Option.some.inj h]
    decide
  · split at h
    · exact absurd h (by simp)
    · simp only [Option.ite_none_right_eq_some, Option.some.injEq] at h
      exact h.2 ▸ h.1

end Word

namespace Numeral

theorem append_lt {n : Nat} (h : n < UInt64.size) (chars : List Char) :
    (append n chars).1 < UInt64.size := by
  fun_induction append n chars with
  | case1 n => exact h
  | case2 n c rest longer hlonger ih => exact ih hlonger
  | case3 n c rest longer hlonger => exact h

theorem scaledWord?_lt_infinity {numeral : Numeral} {word : Nat}
    (h : numeral.scaledWord? = some word) : word < Word.infinity := by
  have hdigits : numeral.gathered.digits < UInt64.size :=
    append_lt (append_lt (by decide) numeral.whole) numeral.fraction
  rw [scaledWord?] at h
  split at h
  · exact Word.scaleUp?_lt_infinity h
  · rw [← Option.some.inj h]
    exact Word.scaleDown_lt_infinity hdigits _

/-- What a numeral is read as is finite. -/
theorem isFinite_of_scaled? {numeral : Numeral} {x : Float} (h : numeral.scaled? = some x) :
    x.isFinite = true := by
  rw [scaled?, Option.map_eq_some_iff] at h
  rcases h with ⟨word, hword, rfl⟩
  exact isFinite_toFloat _ (scaledWord?_lt_infinity hword)

end Numeral

/-- What a decimal is read as is finite. -/
theorem Decimal.isFinite_of_toFloat? {negative : Bool} {d : Decimal} {x : Float}
    (h : d.toFloat? negative = some x) : x.isFinite = true := by
  rw [toFloat?, Option.map_eq_some_iff] at h
  rcases h with ⟨word, hword, rfl⟩
  refine isFinite_toFloat _ ?_
  have hzero : 0 < Word.infinity := by decide
  unfold word? at hword
  split at hword
  · exact Option.some.inj hword ▸ hzero
  · split at hword
    · exact absurd hword (by simp)
    · split at hword
      · exact Option.some.inj hword ▸ hzero
      · simp only [Option.ite_none_right_eq_some, Option.some.injEq] at hword
        exact hword.2 ▸ hword.1

end SolidModel
