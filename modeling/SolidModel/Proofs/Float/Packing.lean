import SolidModel.Proofs.Float.Rounding

/-!
# Numbers in Words

Which numbers survive being stored in a word.

A word has room for fifty-two digits and an exponent. What is read from a word has therefore a
mantissa of the right length and an exponent in range, and whatever has these comes back from a word
as it was. So storing a rounded result does nothing to it, unless it is so large that the exponent
does not fit, and then it is far beyond anything that a bounded computation can produce.

## Main definitions

* `Fits`: The exponent is in range.

## Theorems

* `canonical_parts`, `fits_parts`: What is read from a word.
* `stored_eq_self`: What comes back from a word as it was.
* `Rounds.fits`: Results that are bounded do.
-/

namespace SolidModel

open Float.Model UnpackedFloat

/-- The exponent is in range. -/
def Fits : UnpackedFloat → Prop
  | .finite _ _ e _ => e ≤ 971
  | _ => True

theorem toNat_one_append (m : BitVec 52) : (1#1 ++ m).toNat = 2 ^ 52 + m.toNat := by
  rw [BitVec.toNat_append, Nat.shiftLeft_eq]
  exact (Nat.two_pow_add_eq_or_of_lt m.isLt 1).symm

/-- What is read from a word has a mantissa of the right length and an exponent in range. -/
theorem canonical_unpack (word : BitVec 64) :
    Canonical (unpack Format.binary64 word) ∧ Fits (unpack Format.binary64 word) := by
  have hm : (@unpackMantissa Format.binary64 word).toNat < 2 ^ 52 := BitVec.isLt _
  have he : (@unpackExponent Format.binary64 word).toNat < 2 ^ 11 := BitVec.isLt _
  unfold UnpackedFloat.unpack
  dsimp only
  split
  · split <;> exact ⟨trivial, trivial⟩
  · next hmost =>
      split
      · next hleast =>
          rw [hleast]
          split
          · exact ⟨trivial, trivial⟩
          · refine ⟨⟨Nat.lt_trans hm (by norm_num), ?_, Or.inr ?_⟩, ?_⟩
            · change (-1074 : ℤ) ≤ -1074
              exact le_refl _
            · rfl
            · change (-1074 : ℤ) ≤ 971
              norm_num
      -- A normal number has its leading bit implied, and its exponent field is neither end of the
      -- range.
      · next hleast =>
          have hmost' : (@unpackExponent Format.binary64 word).toNat ≠ 2047 :=
            fun heq => hmost (BitVec.eq_of_toNat_eq heq)
          have hleast' : (@unpackExponent Format.binary64 word).toNat ≠ 0 :=
            fun heq => hleast (BitVec.eq_of_toNat_eq heq)
          refine ⟨⟨?_, ?_, Or.inl ?_⟩, ?_⟩
          · rw [toNat_one_append]
            omega
          · change -1074 ≤ (_ : ℤ) - ((1023 : ℕ) + (52 : ℕ))
            omega
          · rw [toNat_one_append]
            omega
          · change (_ : ℤ) - ((1023 : ℕ) + (52 : ℕ)) ≤ 971
            omega

theorem canonical_parts (x : Float) : Canonical (parts x) := (canonical_unpack _).1

theorem fits_parts (x : Float) : Fits (parts x) := (canonical_unpack _).2

/-- What components with an ordinary exponent stand for. -/
theorem unpack_normal (s : Sign) {e : BitVec 11} (m : BitVec 52) (hmost : e.toNat < 2047)
    (hleast : 0 < e.toNat) (hm : 0 < (1#1 ++ m).toNat) :
    unpack Format.binary64 (packComponents Format.binary64 s e m) =
      .finite s (1#1 ++ m).toNat ((e.toNat : ℤ) - 1075) hm := by
  have hmost' : e ≠ -1#11 := fun heq => by
    rw [heq] at hmost
    exact absurd hmost (by decide)
  have hleast' : e ≠ 0#11 := fun heq => by
    rw [heq] at hleast
    exact absurd hleast (by decide)
  unfold UnpackedFloat.unpack
  simp only [unpackMantissa_packComponents, unpackExponent_packComponents,
    unpackSign_packComponents, ofBitVec_toBitVec]
  rw [if_neg hmost', if_neg hleast']
  rfl

/-- What components with the least exponent stand for. -/
theorem unpack_subnormal (s : Sign) {m : BitVec 52} (hm : 0 < m.toNat) :
    unpack Format.binary64 (packComponents Format.binary64 s 0#11 m) =
      .finite s m.toNat (-1074) hm := by
  have hne : m ≠ 0#52 := fun heq => by
    rw [heq] at hm
    exact absurd hm (by decide)
  unfold UnpackedFloat.unpack
  simp only [unpackMantissa_packComponents, unpackExponent_packComponents,
    unpackSign_packComponents, ofBitVec_toBitVec]
  rw [if_neg (by decide), if_pos trivial, dif_neg hne]
  rfl

/-- What has a mantissa of the right length and an exponent in range comes back as it was. So the
    result of an operation may be looked at before it is put into a word. -/
theorem stored_eq_self {u : UnpackedFloat} (hu : Canonical u) (hfits : Fits u) : stored u = u := by
  cases u with
  | notANumber => exact stored_notANumber
  | infinity s => exact stored_infinity s
  | zero s => exact stored_zero s
  | finite s m e hm =>
      rcases hu with ⟨hlt, hleast, hform⟩
      have hmost : e ≤ 971 := hfits
      -- The exponent fits into its field, so that nothing is stored as infinity.
      have hroom : ¬ 2 ^ 11 ≤ (e + (1023 : ℕ) + (52 : ℕ)).toNat + 1 := by omega
      have hpack : pack Format.binary64 (.finite s m e hm) =
          if m.log2 + 1 = 53 then packComponents Format.binary64 s
            (BitVec.ofNat 11 (e + (1023 : ℕ) + (52 : ℕ)).toNat) (BitVec.ofNat 52 m)
          else packComponents Format.binary64 s 0#11 (BitVec.ofNat 52 m) := if_neg hroom
      rw [stored, hpack]
      have hmantissa : (BitVec.ofNat 52 m).toNat = m % 2 ^ 52 := BitVec.toNat_ofNat m 52
      have hexponent : (BitVec.ofNat 11 (e + (1023 : ℕ) + (52 : ℕ)).toNat).toNat =
          (e + (1023 : ℕ) + (52 : ℕ)).toNat := by
        rw [BitVec.toNat_ofNat]
        exact Nat.mod_eq_of_lt (by omega)
      split
      · next hlog =>
          have hlow : 2 ^ 52 ≤ m := by
            have h := Nat.log2_self_le hm.ne'
            rwa [show m.log2 = 52 by omega] at h
          have happend : (1#1 ++ BitVec.ofNat 52 m).toNat = m := by
            rw [toNat_one_append, hmantissa]
            omega
          rw [unpack_normal s _ (by omega) (by omega) (by omega)]
          simp only [happend, hexponent, UnpackedFloat.finite.injEq, true_and]
          omega
      · next hlog =>
          have hshort : m < 2 ^ 52 := by
            by_contra hlong
            have hlog52 : m.log2 = 52 := by
              have hle := (Nat.le_log2 hm.ne').mpr (Nat.not_lt.mp hlong)
              have hlt' := (Nat.log2_lt hm.ne').mpr hlt
              omega
            omega
          have hexact : (BitVec.ofNat 52 m).toNat = m := by
            rw [hmantissa]
            exact Nat.mod_eq_of_lt hshort
          rw [unpack_subnormal s (by omega)]
          simp only [hexact, UnpackedFloat.finite.injEq, true_and]
          omega

/-- What is too large becomes infinite, so what is finite afterwards was in range. -/
theorem fits_of_isFinite_stored {u : UnpackedFloat} (h : (stored u).isFinite = true) : Fits u := by
  cases u with
  | notANumber => exact trivial
  | infinity s => exact trivial
  | zero s => exact trivial
  | finite s m e hm =>
      change e ≤ 971
      by_contra hlarge
      have hroom : 2 ^ 11 ≤ (e + (1023 : ℕ) + (52 : ℕ)).toNat + 1 := by omega
      have hpack : pack Format.binary64 (.finite s m e hm) = pack Format.binary64 (.infinity s) :=
        if_pos hroom
      have hstored : stored (.finite s m e hm) = .infinity s := by
        rw [stored, hpack]
        exact stored_infinity s
      rw [hstored] at h
      exact Bool.false_ne_true h

/-- A rounded result that is bounded has an exponent in range. That the bound is asked of the exact
    number makes it independent of how the result was rounded. -/
theorem Rounds.fits {u : UnpackedFloat} (hu : Canonical u) {r : ℝ} (h : Rounds r (valueOf u))
    (hr : |r| ≤ 2 ^ (1023 : ℤ)) : Fits u := by
  cases u with
  | notANumber => exact trivial
  | infinity s => exact trivial
  | zero s => exact trivial
  | finite s m e hm =>
      rcases hu with ⟨_, _, hform⟩
      have hbound := h.abs_le (by norm_num) hr
      change e ≤ 971
      -- With a larger exponent the mantissa is full, and the number is beyond the bound.
      by_contra hlarge
      have hlow : (2 : ℝ) ^ (52 : ℤ) ≤ m := by
        exact_mod_cast hform.resolve_right (by omega)
      have hpower : (2 : ℝ) ^ (1024 : ℤ) ≤ m * 2 ^ e := by
        calc (2 : ℝ) ^ (1024 : ℤ) ≤ 2 ^ (52 + e) := zpow_le_zpow_right₀ one_le_two (by omega)
          _ = 2 ^ (52 : ℤ) * 2 ^ e := zpow_add₀ two_ne_zero _ _
          _ ≤ m * 2 ^ e := mul_le_mul_of_nonneg_right hlow (zpow_pos two_pos e).le
      have hvalue : |valueOf (.finite s m e hm)| = m * 2 ^ e := by
        rw [valueOf, abs_mul, abs_signFactor, one_mul, abs_of_nonneg (by positivity)]
      rw [hvalue] at hbound
      have hstrict : (2 : ℝ) ^ (1023 : ℤ) < 2 ^ (1024 : ℤ) :=
        zpow_lt_zpow_right₀ one_lt_two (by norm_num)
      exact absurd (hpower.trans hbound) (not_le_of_gt hstrict)

end SolidModel
