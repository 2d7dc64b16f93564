import SolidModel.Proofs.Decimal.Significant

/-!
# Rounded Numbers Say What They Should

What is shown of a number is the number rounded to three significant digits.

Whoever reads a rounded number reads the exact number rounded half to even, and not something that
has been rounded once more. The digits are those of the second rounding, which agree with those of
the first, and to take zeros away behind a point, or to put one there, does not change what is said.

Which form is taken depends on the rounded number alone, since the exponent comes from the first
rounding: it is written out from `10 ^ -4` to below one hundred, and is in scientific form
otherwise. What remains of the digits ends in no zero, but for the one that stands alone behind a
point.

## Main definitions

* `Numeral.value`: The number that a numeral says.
* `keptFraction`: The digits behind a point that trimming leaves.
* `Numeral.WrittenOut`: The text of a numeral without an exponent, trimmed.
* `Numeral.Scientific`: The text of a numeral with an exponent, trimmed.

## Theorems

* `trimFixed_pointed`, `trimMantissa_pointed`: What trimming leaves.
* `Numeral.value_append_zeros`: Zeros at the end of a fraction say nothing.
* `Word.fixed_parts`, `Decimal.mantissa_parts`: The digits on the two sides of the point.
* `Word.rounded_writtenOut`, `Word.rounded_scientific`: The two forms of a magnitude.
* `showRounded_significant`: What is shown of a float.
-/

namespace SolidModel

/-! ## Trimming -/

section Trim

variable {c : Char} {text rest : List Char}

theorem exists_trimEnd (c : Char) (text : List Char) :
    ∃ n, text = trimEnd c text ++ List.replicate n c := by
  have htaken : ∀ d ∈ text.reverse.takeWhile (· == c), d = c := by
    intro d hd
    exact beq_iff_eq.mp (List.mem_takeWhile_imp (p := (· == c)) hd)
  refine ⟨(text.reverse.takeWhile (· == c)).length, ?_⟩
  calc text
      = (text.reverse.takeWhile (· == c) ++ text.reverse.dropWhile (· == c)).reverse := by
        rw [List.takeWhile_append_dropWhile, List.reverse_reverse]
    _ = trimEnd c text ++ (text.reverse.takeWhile (· == c)).reverse := List.reverse_append
    _ = trimEnd c text ++ List.replicate (text.reverse.takeWhile (· == c)).length c := by
        conv_lhs => rw [List.eq_replicate_of_mem htaken, List.reverse_replicate]

theorem getLast?_trimEnd (c : Char) (text : List Char) : (trimEnd c text).getLast? ≠ some c := by
  rw [trimEnd, List.getLast?_reverse]
  intro h
  have hhead := List.head?_dropWhile_not (· == c) text.reverse
  rw [h] at hhead
  exact absurd hhead (by simp only [beq_self_eq_true, Bool.true_eq_false, not_false_eq_true])

theorem mem_of_mem_trimEnd {d : Char} (h : d ∈ trimEnd c text) : d ∈ text := by
  rw [trimEnd, List.mem_reverse] at h
  exact List.mem_reverse.mp ((List.dropWhile_sublist _).mem h)

/-- Nothing is taken away if the last character is another one. -/
theorem trimEnd_eq_self (h : text.getLast? ≠ some c) : trimEnd c text = text := by
  obtain ⟨n, hn⟩ := exists_trimEnd c text
  cases n with
  | zero =>
      rw [List.replicate_zero, List.append_nil] at hn
      exact hn.symm
  | succ n =>
      rw [List.replicate_succ', ← List.append_assoc] at hn
      rw [hn, List.getLast?_concat] at h
      exact absurd rfl h

theorem trimEnd_append_of_ne_nil (text : List Char) (h : trimEnd c rest ≠ []) :
    trimEnd c (text ++ rest) = text ++ trimEnd c rest := by
  have hne : ¬(rest.reverse.dropWhile (· == c)).isEmpty = true := by
    rw [List.isEmpty_iff, ← List.reverse_eq_nil_iff]
    exact h
  rw [trimEnd, List.reverse_append, List.dropWhile_append, if_neg hne, List.reverse_append,
    List.reverse_reverse]
  rfl

theorem trimEnd_append_of_eq_nil (text : List Char) (h : trimEnd c rest = []) :
    trimEnd c (text ++ rest) = trimEnd c text := by
  have hnil : (rest.reverse.dropWhile (· == c)).isEmpty = true := by
    rw [List.isEmpty_iff, ← List.reverse_eq_nil_iff]
    exact h
  rw [trimEnd, List.reverse_append, List.dropWhile_append, if_pos hnil]
  rfl

/-- Zeros are taken away up to the point. -/
theorem trimEnd_point (whole fraction : List Char) :
    trimEnd '0' (whole ++ '.' :: fraction) = whole ++ '.' :: trimEnd '0' fraction := by
  rw [List.append_cons whole '.' fraction, List.append_cons whole '.' (trimEnd '0' fraction)]
  by_cases hnil : trimEnd '0' fraction = []
  · have hpoint : (whole ++ ['.']).getLast? ≠ some '0' := by
      rw [List.getLast?_concat]
      decide
    rw [trimEnd_append_of_eq_nil _ hnil, trimEnd_eq_self hpoint, hnil, List.append_nil]
  · exact trimEnd_append_of_ne_nil _ hnil

end Trim

/-- The digits behind a point that are kept: those that are left without zeros at the end, or a
    single zero. -/
def keptFraction (fraction : List Char) : List Char :=
  if trimEnd '0' fraction = [] then ['0'] else trimEnd '0' fraction

theorem keptFraction_ne_nil (fraction : List Char) : keptFraction fraction ≠ [] := by
  unfold keptFraction
  split
  · exact List.cons_ne_nil _ _
  · next h => exact h

theorem keptFraction_trimmed (fraction : List Char) :
    keptFraction fraction = ['0'] ∨ (keptFraction fraction).getLast? ≠ some '0' := by
  unfold keptFraction
  split
  · exact Or.inl rfl
  · exact Or.inr (getLast?_trimEnd '0' fraction)

section Pointed

variable {whole fraction : List Char} (hfraction : ∀ c ∈ fraction, c.isDigit)

include hfraction

theorem getLast?_trimEnd_ne_point : (trimEnd '0' fraction).getLast? ≠ some '.' := by
  intro h
  have hdigit := hfraction '.' (mem_of_mem_trimEnd (List.mem_of_getLast? h))
  exact absurd hdigit (by decide)

theorem isDigit_keptFraction : ∀ c ∈ keptFraction fraction, c.isDigit := by
  unfold keptFraction
  split
  · exact List.forall_mem_singleton.mpr rfl
  · exact fun c hc => hfraction c (mem_of_mem_trimEnd hc)

/-- A number that is written out keeps one zero behind the point if there is nothing else. So there
    is a digit on either side of the point whatever is taken away. -/
theorem trimFixed_pointed (hne : fraction ≠ []) :
    trimFixed (pointed whole fraction) = whole ++ '.' :: keptFraction fraction := by
  have hpointed : pointed whole fraction = whole ++ '.' :: fraction := by
    rw [pointed, if_neg (by rwa [List.isEmpty_iff])]
  unfold trimFixed keptFraction
  dsimp only
  rw [hpointed, trimEnd_point]
  by_cases hnil : trimEnd '0' fraction = []
  · rw [hnil, if_pos (List.getLast?_concat ..), if_pos rfl, List.append_assoc,
      List.singleton_append]
  · have hlast : (whole ++ '.' :: trimEnd '0' fraction).getLast? ≠ some '.' := by
      rw [List.append_cons, List.getLast?_append_of_ne_nil _ hnil]
      exact getLast?_trimEnd_ne_point hfraction
    rw [if_neg hlast, if_neg hnil]

/-- A mantissa keeps no zero behind the point, and no point with nothing behind it. -/
theorem trimMantissa_pointed {lead : Char} (hlead : lead.isDigit) :
    trimMantissa (pointed [lead] fraction) = pointed [lead] (trimEnd '0' fraction) := by
  have hpoint : lead ≠ '.' := by
    rintro rfl
    exact absurd hlead (by decide)
  cases fraction with
  | nil =>
      have hnone : ([lead] : List Char).contains '.' = false := by
        rw [List.contains_cons, List.contains_nil, Bool.or_false, beq_eq_false_iff_ne]
        exact hpoint.symm
      change trimMantissa [lead] = [lead]
      rw [trimMantissa, hnone]
      rfl
  | cons d ds =>
      have hsome : ([lead] ++ '.' :: d :: ds).contains '.' = true := by
        rw [List.contains_eq_mem, decide_eq_true_eq]
        exact List.mem_append_right _ List.mem_cons_self
      change trimMantissa ([lead] ++ '.' :: d :: ds) = _
      rw [trimMantissa, if_pos hsome, trimEnd_point, pointed]
      -- If all of the fraction is trimmed, the point that is left at the end goes as well.
      by_cases hnil : trimEnd '0' (d :: ds) = []
      · have hlast : ([lead] : List Char).getLast? ≠ some '.' := by
          rw [List.getLast?_singleton]
          exact fun h => hpoint (Option.some.inj h)
        rw [hnil, trimEnd_append_of_eq_nil _ rfl, trimEnd_eq_self hlast]
        rfl
      · have hlast : ([lead] ++ '.' :: trimEnd '0' (d :: ds)).getLast? ≠ some '.' := by
          rw [List.append_cons, List.getLast?_append_of_ne_nil _ hnil]
          exact getLast?_trimEnd_ne_point hfraction
        rw [trimEnd_eq_self hlast, if_neg (by rwa [List.isEmpty_iff])]

end Pointed

/-! ## What is said -/

namespace Numeral

/-- The number that the numeral says. -/
noncomputable def value (numeral : Numeral) : ℝ :=
  signOf numeral.negative * numeral.decimal.value

/-- Zeros at the end of a fraction say nothing. -/
theorem value_append_zeros (negative : Bool) (whole fraction : List Char) (e : Option ℤ) (n : ℕ) :
    value ⟨negative, whole, fraction ++ List.replicate n '0', e⟩ =
      value ⟨negative, whole, fraction, e⟩ := by
  have hexponent : e.getD 0 - ((fraction ++ List.replicate n '0').length : ℤ) =
      e.getD 0 - fraction.length - n := by
    rw [List.length_append, List.length_replicate]
    push_cast
    ring
  simp only [value, decimal, Decimal.value, hexponent]
  rw [← List.append_assoc, Nat.ofDigitChars_append, Nat.ofDigitChars_replicate_zero,
    zpow_sub₀ (by norm_num : (10 : ℝ) ≠ 0) _ (n : ℤ), zpow_natCast]
  push_cast
  field_simp

theorem value_trimEnd (negative : Bool) (whole fraction : List Char) (e : Option ℤ) :
    value ⟨negative, whole, trimEnd '0' fraction, e⟩ = value ⟨negative, whole, fraction, e⟩ := by
  obtain ⟨n, hn⟩ := exists_trimEnd '0' fraction
  conv_rhs => rw [hn]
  exact (value_append_zeros negative whole _ e n).symm

/-- The zero that is kept behind a point says nothing either. -/
theorem value_keptFraction (negative : Bool) (whole fraction : List Char) (e : Option ℤ) :
    value ⟨negative, whole, keptFraction fraction, e⟩ = value ⟨negative, whole, fraction, e⟩ := by
  rw [← value_trimEnd negative whole fraction, keptFraction]
  by_cases hnil : trimEnd '0' fraction = []
  · rw [if_pos hnil, hnil]
    exact value_append_zeros negative whole [] e 1
  · rw [if_neg hnil]

/-- The trimmed text of a numeral without an exponent: there are digits behind the point, and the
    last one is no zero unless it is the only one. -/
structure WrittenOut (text : List Char) (numeral : Numeral) : Prop where
  /-- The text is the sign, the digits before the point, the point, and the digits behind it. -/
  text_eq : text = Layout.sign numeral.negative ++ (numeral.whole ++ '.' :: numeral.fraction)
  /-- On the two sides of the point there is nothing but digits. -/
  digits : ∀ c ∈ numeral.whole ++ numeral.fraction, c.isDigit
  /-- There is a digit before the point, and no zero in front that could be left out. -/
  whole : isWhole numeral.whole = true
  /-- There is a digit behind the point. -/
  fraction : numeral.fraction ≠ []
  /-- The last digit behind the point is no zero, unless it is the only one. -/
  trimmed : numeral.fraction = ['0'] ∨ numeral.fraction.getLast? ≠ some '0'
  /-- No power of ten is written. -/
  exponent : numeral.exponent = none

/-- The text of an exponent, which has a sign and at least two digits. -/
def SignedExponent (marked : List Char) (e : ℤ) : Prop :=
  ∃ ds, marked = (if e < 0 then '-' else '+') :: ds ∧ 2 ≤ ds.length ∧ (∀ c ∈ ds, c.isDigit) ∧
    Nat.ofDigitChars 10 ds 0 = e.natAbs

/-- The trimmed text of a numeral with an exponent: there is one digit before the point, which is no
    zero, and the last one behind it is no zero either. Without digits there is no point. -/
structure Scientific (text : List Char) (numeral : Numeral) : Prop where
  /-- The text is the sign, the digits, the mark and the exponent, which has a sign of its own and
      two digits or more. -/
  text_eq : ∃ e marked, numeral.exponent = some e ∧ SignedExponent marked e ∧
    text = Layout.sign numeral.negative ++
      (pointed numeral.whole numeral.fraction ++ 'e' :: marked)
  /-- On the two sides of the point there is nothing but digits. -/
  digits : ∀ c ∈ numeral.whole ++ numeral.fraction, c.isDigit
  /-- One digit stands before the point, and it is no zero. -/
  whole : ∃ lead, numeral.whole = [lead] ∧ lead ≠ '0'
  /-- The last digit behind the point is no zero. Without digits there is no point either. -/
  trimmed : numeral.fraction.getLast? ≠ some '0'

section Forms

variable {text : List Char} {numeral : Numeral}

theorem WrittenOut.written (h : WrittenOut text numeral) : Written text numeral := by
  have hdigits := List.forall_mem_append.mp h.digits
  have hnumeral : numeral = ⟨numeral.negative, numeral.whole, numeral.fraction, none⟩ := by
    rw [← h.exponent]
  rw [h.text_eq, hnumeral]
  exact Written.pointed hdigits.1 h.whole hdigits.2 numeral.negative h.fraction

theorem Scientific.written (h : Scientific text numeral) : Written text numeral := by
  obtain ⟨e, marked, hexponent, ⟨ds, hmarked, hlength, hds, hvalue⟩, htext⟩ := h.text_eq
  obtain ⟨lead, hwhole, _⟩ := h.whole
  have hdigits := List.forall_mem_append.mp h.digits
  have hnumeral : numeral = ⟨numeral.negative, numeral.whole, numeral.fraction, some e⟩ := by
    rw [← hexponent]
  have hne : ds ≠ [] := List.ne_nil_of_length_pos (by omega)
  have hread : ∀ rest, Ends rest → exponent? ('e' :: (marked ++ rest)) = some (some e, rest) := by
    intro rest hrest
    rw [hmarked]
    exact exponent?_signed hds hne hvalue hrest.noDigit
  rw [htext, pointed, List.append_assoc, hnumeral]
  refine Written.marked hdigits.1 ?_ hdigits.2 numeral.negative hread
  rw [hwhole]
  rfl

/-- No numeral is of both forms. -/
theorem Scientific.not_writtenOut (h : Scientific text numeral) : ¬WrittenOut text numeral := by
  intro hout
  obtain ⟨e, _, hexponent, _⟩ := h.text_eq
  rw [hout.exponent] at hexponent
  exact absurd hexponent (by simp only [reduceCtorEq, not_false_eq_true])

end Forms

end Numeral

/-! ## Padding -/

section Padded

variable (width n : ℕ)

theorem isDigit_padded : ∀ c ∈ padded width n, c.isDigit :=
  List.forall_mem_append.mpr ⟨Layout.isDigit_zeros _, Numeral.isDigit_toDigits n⟩

theorem le_length_padded : width ≤ (padded width n).length := by
  rw [padded, List.length_append, List.length_replicate]
  omega

theorem ofDigitChars_padded : Nat.ofDigitChars 10 (padded width n) 0 = n := by
  rw [padded, Nat.ofDigitChars_append, Nat.ofDigitChars_replicate_zero, Nat.mul_zero,
    Nat.ofDigitChars_ten_toDigits]

end Padded

/-- What is padded to one digit before the point has no needless zero before it. -/
theorem isWhole_take_padded (places : ℕ) {n : ℕ} (hn : 0 < n) : Numeral.isWhole
    ((padded (places + 1) n).take ((padded (places + 1) n).length - places)) = true := by
  have hlength : (padded (places + 1) n).length =
      places + 1 - (Nat.toDigits 10 n).length + (Nat.toDigits 10 n).length := by
    rw [padded, List.length_append, List.length_replicate]
  by_cases hfew : (Nat.toDigits 10 n).length ≤ places + 1
  · -- There is a single digit before the point, be it a zero or not.
    have hone : (padded (places + 1) n).length - places = 1 := by omega
    rw [hone]
    rcases hcs : padded (places + 1) n with _ | ⟨c, cs⟩
    · rw [hcs, List.length_nil] at hone
      omega
    · rfl
  · have hnone : padded (places + 1) n = Nat.toDigits 10 n := by
      rw [padded, Nat.sub_eq_zero_of_le (by omega), List.replicate_zero, List.nil_append]
    rw [hnone]
    exact Layout.isWhole_take_chars (d := ⟨n, 0⟩) hn (by omega)

theorem signedExponent_rounded (e : ℤ) : Numeral.SignedExponent (roundedExponent e) e :=
  ⟨padded 2 e.natAbs, rfl, le_length_padded 2 _, isDigit_padded 2 _, ofDigitChars_padded 2 _⟩

/-! ## Magnitudes -/

/-- The digits of a mantissa on the two sides of the point. -/
theorem Decimal.mantissa_parts {d : Decimal} (hpos : 0 < d.digits) :
    ∃ lead fraction, d.mantissa = pointed [lead] fraction ∧ lead ≠ '0' ∧ lead.isDigit ∧
      (∀ c ∈ fraction, c.isDigit) ∧ d.leading - fraction.length = d.exponent ∧
      Nat.ofDigitChars 10 ([lead] ++ fraction) 0 = d.digits := by
  have hdigits : ∀ c ∈ d.chars, c.isDigit := Numeral.isDigit_toDigits d.digits
  have hhead : d.chars.head? ≠ some '0' := Numeral.head?_toDigits_ne_zero hpos
  have hvalue : Nat.ofDigitChars 10 d.chars 0 = d.digits := Nat.ofDigitChars_ten_toDigits
  have hleading : d.leading = d.exponent + d.chars.length - 1 := rfl
  obtain ⟨lead, fraction, hchars⟩ := List.exists_cons_of_ne_nil (Layout.chars_ne_nil d)
  rw [hchars] at hdigits hhead hvalue hleading
  have hlead := List.forall_mem_cons.mp hdigits
  rw [List.length_cons] at hleading
  refine ⟨lead, fraction, ?_, ?_, hlead.1, hlead.2, by omega, hvalue⟩
  · rw [Decimal.mantissa, hchars]
    rfl
  · exact fun heq => hhead (congrArg some heq)

namespace Word

/-- What a number of places leaves on the two sides of the point. The digits of both sides together
    are the number of steps of that place, and as many of them are behind the point as there are
    places. -/
theorem fixed_parts (word places : ℕ) (hpos : 0 < steps word (-places)) :
    ∃ whole fraction, fixed places word = pointed whole fraction ∧
      Numeral.isWhole whole = true ∧ (∀ c ∈ whole ++ fraction, c.isDigit) ∧
      fraction.length = places ∧
      Nat.ofDigitChars 10 (whole ++ fraction) 0 = steps word (-places) := by
  let digits := padded (places + 1) (steps word (-places))
  have hsplit : digits.take (digits.length - places) ++ digits.drop (digits.length - places) =
      digits := List.take_append_drop _ _
  refine ⟨digits.take (digits.length - places), digits.drop (digits.length - places), rfl,
    isWhole_take_padded places hpos, ?_, ?_, ?_⟩
  · rw [hsplit]
    exact isDigit_padded _ _
  · have hle : places + 1 ≤ digits.length := le_length_padded _ _
    rw [List.length_drop]
    omega
  · rw [hsplit]
    exact ofDigitChars_padded _ _

section Rounded

variable {word : ℕ} (hword : word ≠ 0) (k : ℕ) (negative : Bool)

include hword

/-- A magnitude whose leading digit is near the point is written out. The leading digit is that of
    the rounded number, and the text says that number with the sign that is put in front of it. -/
theorem rounded_writtenOut (hlow : -4 ≤ (scientific (k + 1) word).leading)
    (hhigh : (scientific (k + 1) word).leading < k) :
    ∃ numeral, Numeral.WrittenOut (Layout.sign negative ++ rounded (k + 1) word) numeral ∧
      numeral.value = signOf negative * significant (k + 1) (magnitude word) := by
  have hexponent := leading_eq_exponent_add hword k
  have hpos := digits_scientific_pos hword k
  have hsteps := steps_scientific hword k
  rw [← value_scientific hword k]
  generalize hd : scientific (k + 1) word = d at hexponent hpos hsteps hlow hhigh ⊢
  obtain ⟨places, hplaces⟩ : ∃ places, ((k + 1 : ℕ) - 1 - d.leading).toNat = places := ⟨_, rfl⟩
  have hplace : (-places : ℤ) = d.exponent := by omega
  obtain ⟨whole, fraction, hfixed, hwhole, hdigits, hlength, hvalue⟩ :=
    fixed_parts word places (by rwa [hplace, hsteps])
  -- Since not all digits stand before the point, there is a fraction to be trimmed.
  have hfraction := List.forall_mem_append.mp hdigits
  have hne : fraction ≠ [] := List.ne_nil_of_length_pos (by omega)
  have htext : rounded (k + 1) word = whole ++ '.' :: keptFraction fraction := by
    have hcondition : -4 ≤ d.leading ∧ d.leading < ((k + 1 : ℕ) : ℤ) - 1 := by omega
    unfold rounded
    dsimp only
    rw [hd, if_pos hcondition, hplaces, hfixed]
    exact trimFixed_pointed hfraction.2 hne
  refine ⟨⟨negative, whole, keptFraction fraction, none⟩, ?_, ?_⟩
  · exact {
      text_eq := by rw [htext]
      digits := List.forall_mem_append.mpr ⟨hfraction.1, isDigit_keptFraction hfraction.2⟩
      whole := hwhole
      fraction := keptFraction_ne_nil fraction
      trimmed := keptFraction_trimmed fraction
      exponent := rfl }
  · rw [Numeral.value_keptFraction, Numeral.value, Numeral.decimal]
    dsimp only
    rw [hvalue, hplace, hsteps, hlength, Option.getD_none, zero_sub, hplace]

/-- A magnitude whose leading digit is not near the point is in scientific form, and the text says
    the rounded number with the sign that is put in front of it. -/
theorem rounded_scientific (h : ¬(-4 ≤ (scientific (k + 1) word).leading ∧
    (scientific (k + 1) word).leading < k)) :
    ∃ numeral, Numeral.Scientific (Layout.sign negative ++ rounded (k + 1) word) numeral ∧
      numeral.value = signOf negative * significant (k + 1) (magnitude word) := by
  have hexponent := leading_eq_exponent_add hword k
  have hpos := digits_scientific_pos hword k
  rw [← value_scientific hword k]
  generalize hd : scientific (k + 1) word = d at hexponent hpos h ⊢
  obtain ⟨lead, fraction, hmantissa, hlead, hdigit, hfraction, hlength, hvalue⟩ :=
    Decimal.mantissa_parts hpos
  -- The text compares with one less than the count of digits.
  have htext : rounded (k + 1) word =
      pointed [lead] (trimEnd '0' fraction) ++ 'e' :: roundedExponent d.leading := by
    have hcondition : ¬(-4 ≤ d.leading ∧ d.leading < ((k + 1 : ℕ) : ℤ) - 1) := by omega
    unfold rounded
    dsimp only
    rw [hd, if_neg hcondition, hmantissa, trimMantissa_pointed hfraction hdigit]
  refine ⟨⟨negative, [lead], trimEnd '0' fraction, some d.leading⟩, ?_, ?_⟩
  · exact {
      text_eq := ⟨d.leading, _, rfl, signedExponent_rounded d.leading, by rw [htext]⟩
      digits := List.forall_mem_cons.mpr
        ⟨hdigit, fun c hc => hfraction c (mem_of_mem_trimEnd hc)⟩
      whole := ⟨lead, rfl, hlead⟩
      trimmed := getLast?_trimEnd '0' fraction }
  · rw [Numeral.value_trimEnd, Numeral.value, Numeral.decimal]
    dsimp only
    rw [hvalue, Option.getD_some, hlength]

/-- The leading digit is near the point if the rounded number is. -/
theorem leading_near_iff : (-4 ≤ (scientific (k + 1) word).leading ∧
    (scientific (k + 1) word).leading < k) ↔
      10 ^ (-4 : ℤ) ≤ significant (k + 1) (magnitude word) ∧
        significant (k + 1) (magnitude word) < 10 ^ (k : ℤ) := by
  have hpos := significant_pos hword k
  rw [leading_scientific hword k, ← Int.zpow_le_iff_le_log (by decide) hpos,
    ← Int.lt_zpow_iff_log_lt (by decide) hpos, Nat.cast_ofNat]

end Rounded

end Word

/-! ## Floats -/

/-- What is shown of a finite float other than zero says the number rounded half to even to three
    significant digits: it is a numeral, and the value of the numeral is that number exactly.

    It is written out from `10 ^ -4` to below one hundred, and in scientific form otherwise. Both
    bounds are asked of the number that was rounded, so that one which is carried over a bound by
    rounding is written as what it has become. `WrittenOut` and `Scientific` say what the two forms
    look like: how many digits there are at least, and which zeros may stand at the end. -/
theorem showRounded_significant {x : Float} (hfinite : x.isFinite = true) (hne : value x ≠ 0) :
    ∃ numeral, Numeral.ofText? (showRounded x) = some numeral ∧
      numeral.value = significant 3 (value x) ∧
      (numeral.WrittenOut (showRounded x).toList ↔
        10 ^ (-4 : ℤ) ≤ |significant 3 (value x)| ∧ |significant 3 (value x)| < 100) ∧
      (numeral.Scientific (showRounded x).toList ↔
        ¬(10 ^ (-4 : ℤ) ≤ |significant 3 (value x)| ∧ |significant 3 (value x)| < 100)) := by
  obtain ⟨negative, word, hclass, hword⟩ := exists_word hfinite hne
  have hsigned : significant 3 (value x) =
      signOf negative * significant 3 (Word.magnitude word) := by
    rw [value_of_classify hclass, significant_signOf_mul]
  have habs : |significant 3 (value x)| = significant 3 (Word.magnitude word) := by
    rw [hsigned, abs_mul, abs_signOf, one_mul, abs_of_pos (Word.significant_pos hword 2)]
  have htext : (showRounded x).toList = Layout.sign negative ++ Word.rounded 3 word := by
    unfold showRounded
    dsimp only
    rw [hclass, Layout.classText, String.toList_ofList, if_neg hword]
    rfl
  have hnear := Word.leading_near_iff hword 2
  have hhundred : (10 : ℝ) ^ ((2 : ℕ) : ℤ) = 100 := by norm_num
  rw [hhundred] at hnear
  rw [habs, hsigned, htext, ← hnear]
  -- The form is chosen by the place of the leading digit, and that place is known from the size.
  by_cases h : -4 ≤ (Word.scientific 3 word).leading ∧ (Word.scientific 3 word).leading < (2 : ℕ)
  · obtain ⟨numeral, hform, hsays⟩ := Word.rounded_writtenOut hword 2 negative h.1 h.2
    have hwritten := hform.written
    rw [← htext] at hwritten
    exact ⟨numeral, hwritten.ofText?_eq, hsays, iff_of_true hform h,
      iff_of_false (fun hscientific => hscientific.not_writtenOut hform) (not_not_intro h)⟩
  · obtain ⟨numeral, hform, hsays⟩ := Word.rounded_scientific hword 2 negative h
    have hwritten := hform.written
    rw [← htext] at hwritten
    exact ⟨numeral, hwritten.ofText?_eq, hsays, iff_of_false hform.not_writtenOut h,
      iff_of_true hform h⟩

/-- All digits of `99.96` round up, so that it is shown as one hundred. -/
theorem showRounded_significant_carry :
    (99.96 : Float).isFinite = true ∧ value 99.96 ≠ 0 ∧ showRounded 99.96 = "1e+02" ∧
      ∃ numeral, Numeral.ofText? (showRounded 99.96) = some numeral ∧
        numeral.value = significant 3 (value 99.96) ∧
        (numeral.WrittenOut (showRounded 99.96).toList ↔
          10 ^ (-4 : ℤ) ≤ |significant 3 (value 99.96)| ∧ |significant 3 (value 99.96)| < 100) ∧
        (numeral.Scientific (showRounded 99.96).toList ↔
          ¬(10 ^ (-4 : ℤ) ≤ |significant 3 (value 99.96)| ∧
            |significant 3 (value 99.96)| < 100)) := by
  have hclass : classify 99.96 = .finite false 4636734476604869181 := by decide +kernel
  have hfinite : (99.96 : Float).isFinite = true :=
    (classify_eq_finite_iff 99.96).mp ⟨false, 4636734476604869181, hclass⟩
  have hne : value 99.96 ≠ 0 := by
    rw [value_of_classify hclass]
    exact mul_ne_zero one_ne_zero (Word.magnitude_pos (by decide)).ne'
  exact ⟨hfinite, hne, by decide +kernel, showRounded_significant hfinite hne⟩

example : [9.996, 0.625, -45.0, 123.456, 1.234e-5].map showRounded =
    ["10.0", "0.625", "-45.0", "1.23e+02", "1.23e-05"] := by decide +kernel

end SolidModel
