import SolidModel.Proofs.Decimal.Numeral

/-!
# Laid-Out Decimals Are Numerals

Every finite number in JSON is a numeral, and none that a reader could take for a count.

The digits of a layout are those of a decimal, cut in two or filled up with zeros. Zeros are put in
front only where the part before the point is a single zero, so nothing could go wrong but a zero
that is there from the beginning. The digits of a decimal have none unless they are those of zero,
and `Word.digits_shortest_ne_zero` says that they are not for a float other than zero: what they say
would be read as zero.

A reader keeps plain natural numbers apart from others. A float is never written as one, because
there is a point or an exponent in each of its forms.

## Main definitions

* `Layout.WritesNumber`: The characters are a numeral, but none that says a count.
* `Layout.Trimmed`: No zero stands in front of other digits.

## Theorems

* `Word.digits_shortest_ne_zero`: The decimal of a float other than zero is not zero.
* `Layout.exponent?_json`: An exponent is read as what it was.
* `Layout.writesNumber_json`: A finite float in JSON is a numeral but no count.
-/

namespace SolidModel

/-! ## Digits of floats -/

theorem Decimal.digits_strip_ne_zero (d : Decimal) (h : d.digits ≠ 0) : d.strip.digits ≠ 0 := by
  fun_induction Decimal.strip d with
  | case1 d hd ih => exact ih (by simp only; omega)
  | case2 d hd => exact h

namespace Word

theorem nearest_zero (den : Nat) : nearest 0 den = 0 := by
  have hround : ∀ n, roundDiv 0 n = 0 := by
    intro n
    rw [roundDiv, Nat.zero_mod, Nat.zero_div]
    cases n with
    | zero => rfl
    | succ n => rw [Nat.compare_eq_lt.mpr (Nat.succ_pos n)]
  rw [nearest, Nat.zero_mul, Nat.zero_div, hround]
  rfl

theorem digits_ne_zero_of_readsBack {word : Nat} (hword : word ≠ 0) {d : Decimal}
    (h : readsBack word d = true) : d.digits ≠ 0 := by
  intro hd
  rw [readsBack, Decimal.num, hd, Nat.zero_mul, nearest_zero, beq_iff_eq] at h
  exact hword h.symm

/-- Only a neighbour that reads back is taken. -/
theorem nearer?_eq_some {tie : Tie} {side : Ordering} {low high d : Decimal} {l h : Bool}
    (hd : nearer? tie side low high l h = some d) :
    d = low ∧ l = true ∨ d = high ∧ h = true := by
  cases l <;> cases h <;> simp only [nearer?, Option.some.injEq, reduceCtorEq] at hd
  · exact Or.inr ⟨hd.symm, rfl⟩
  · exact Or.inl ⟨hd.symm, rfl⟩
  · have : d = low ∨ d = high := by grind
    exact this.imp (⟨·, rfl⟩) (⟨·, rfl⟩)

theorem readsBack_of_candidate? {tie : Tie} {word count : Nat} {d : Decimal}
    (h : candidate? tie word count = some d) : readsBack word d = true := by
  simp only [candidate?] at h
  rcases nearer?_eq_some h with ⟨rfl, hread⟩ | ⟨rfl, hread⟩ <;> exact hread

theorem units_ne_zero {word : Nat} (hword : word ≠ 0) : units word ≠ 0 := by
  have hmantissa : mantissa word ≠ 0 := by
    unfold mantissa field
    split
    · next h =>
        have := Nat.div_add_mod word (Nat.pow 2 52)
        rw [h] at this
        omega
    · exact Nat.ne_of_gt (Nat.add_pos_left (by decide) _)
  exact Nat.mul_ne_zero hmantissa (Nat.ne_of_gt (Nat.pow_pos (by decide)))

/-- The decimal of a float other than zero is not zero. -/
theorem digits_shortest_ne_zero (tie : Tie) {word : Nat} (hword : word ≠ 0) :
    (shortest tie word).digits ≠ 0 := by
  refine Decimal.digits_strip_ne_zero _ ?_
  cases hfound : (List.range 17).findSome? fun count => candidate? tie word (count + 1) with
  | some d =>
      rcases List.exists_of_findSome?_eq_some hfound with ⟨count, _, hcount⟩
      exact digits_ne_zero_of_readsBack hword (readsBack_of_candidate? hcount)
  | none =>
      have hpow : ∀ n, Nat.pow 5 n ≠ 0 := fun n => Nat.ne_of_gt (Nat.pow_pos (by decide))
      exact Nat.mul_ne_zero (units_ne_zero hword) (hpow 1074)

end Word

/-! ## Forms -/

namespace Numeral

/-- A numeral with a point or an exponent is no count. -/
theorem natural?_eq_none {numeral : Numeral}
    (h : numeral.fraction ≠ [] ∨ numeral.exponent ≠ none) : numeral.natural? = none := by
  rw [natural?]
  exact if_neg fun hn => h.elim (· hn.2.1) (· hn.2.2.1)

end Numeral

namespace Layout

/-- The characters are a numeral, but none that says a count. -/
def WritesNumber (cs : List Char) : Prop :=
  ∃ numeral, Numeral.Written cs numeral ∧ numeral.natural? = none

/-- No zero stands in front of other digits: only zero begins with one, and it is nothing but
    that. -/
def Trimmed (d : Decimal) : Prop := d.digits = 0 → d.exponent = 0

theorem chars_ne_nil (d : Decimal) : d.chars ≠ [] := Nat.toDigits_ne_nil

theorem isDigit_zeros (n : Nat) : ∀ c ∈ List.replicate n '0', c.isDigit := fun c hc => by
  rw [List.eq_of_mem_replicate hc]
  rfl

theorem isWhole_chars_append {d : Decimal} (h : Trimmed d) :
    Numeral.isWhole (d.chars ++ List.replicate d.exponent.toNat '0') = true := by
  rcases Nat.eq_zero_or_pos d.digits with hzero | hpos
  · rw [h hzero, Decimal.chars, hzero]
    rfl
  · refine Numeral.isWhole_of_head? (List.append_ne_nil_of_left_ne_nil (chars_ne_nil d) _) ?_
    rw [Numeral.head?_append_of_ne_nil (chars_ne_nil d)]
    exact Numeral.head?_toDigits_ne_zero hpos

theorem isWhole_take_chars {d : Decimal} (hpos : 0 < d.digits) {n : Nat} (hn : 0 < n) :
    Numeral.isWhole (d.chars.take n) = true := by
  refine Numeral.isWhole_of_head? (fun h => ?_) ?_
  · rcases List.take_eq_nil_iff.mp h with hzero | hnil
    · omega
    · exact chars_ne_nil d hnil
  · rw [List.head?_take, if_neg (by omega)]
    exact Numeral.head?_toDigits_ne_zero hpos

theorem writesNumber_positional {d : Decimal} (h : Trimmed d) (negative : Bool) :
    WritesNumber (sign negative ++ json.positional d) := by
  have hchars : ∀ c ∈ d.chars, c.isDigit := Numeral.isDigit_toDigits d.digits
  have hzero : ∀ c ∈ ['0'], c.isDigit := List.forall_mem_singleton.mpr rfl
  unfold positional
  split
  · -- The point stands behind all digits, and a zero behind the point.
    have hwhole : ∀ c ∈ d.chars ++ List.replicate d.exponent.toNat '0', c.isDigit :=
      List.forall_mem_append.mpr ⟨hchars, isDigit_zeros _⟩
    exact ⟨_, .pointed hwhole (isWhole_chars_append h) hzero negative (List.cons_ne_nil _ _),
      Numeral.natural?_eq_none (Or.inl (List.cons_ne_nil _ _))⟩
  · next hexponent =>
      split
      · next hleading =>
          -- The point stands among the digits, which are then more than a zero.
          have hpos : 0 < d.digits := by
            refine Nat.pos_of_ne_zero fun hdigits => hexponent ?_
            exact Int.le_of_eq (h hdigits).symm
          have hfraction : d.chars.drop (d.leading + 1).toNat ≠ [] := by
            rw [Ne, List.drop_eq_nil_iff]
            have : d.leading = d.exponent + d.chars.length - 1 := rfl
            omega
          exact ⟨_, .pointed (fun c hc => hchars c (List.mem_of_mem_take hc))
            (isWhole_take_chars hpos (by omega)) (fun c hc => hchars c (List.mem_of_mem_drop hc))
            negative hfraction, Numeral.natural?_eq_none (Or.inl hfraction)⟩
      · -- A zero stands before the point, and all digits behind it.
        have hfraction : ∀ c ∈ List.replicate (-d.leading - 1).toNat '0' ++ d.chars, c.isDigit :=
          List.forall_mem_append.mpr ⟨isDigit_zeros _, hchars⟩
        have hne := List.append_ne_nil_of_right_ne_nil
          (List.replicate (-d.leading - 1).toNat '0') (chars_ne_nil d)
        exact ⟨_, .pointed hzero rfl hfraction negative hne,
          Numeral.natural?_eq_none (Or.inl hne)⟩

theorem exponent_json (e : Int) :
    json.exponent e = (if e < 0 then '-' else '+') :: Nat.toDigits 10 e.natAbs := by
  simp only [exponent, json]
  split <;> rfl

/-- An exponent is read as what it was. -/
theorem exponent?_json (e : Int) {rest : List Char} (hrest : Numeral.NoDigit rest) :
    Numeral.exponent? ('e' :: (json.exponent e ++ rest)) = some (some e, rest) := by
  rw [exponent_json, List.cons_append]
  exact Numeral.exponent?_signed (Numeral.isDigit_toDigits _) Nat.toDigits_ne_nil
    Nat.ofDigitChars_ten_toDigits hrest

theorem writesNumber_scientific (d : Decimal) (negative : Bool) :
    WritesNumber (sign negative ++ json.scientific d) := by
  have hchars : ∀ c ∈ d.chars, c.isDigit := Numeral.isDigit_toDigits d.digits
  have hwhole : Numeral.isWhole (d.chars.take 1) = true := by
    rcases hcs : d.chars with _ | ⟨c, cs⟩
    · exact absurd hcs (chars_ne_nil d)
    · rfl
  rw [scientific, List.append_assoc]
  exact ⟨_, .marked (fun c hc => hchars c (List.mem_of_mem_take hc)) hwhole
    (fun c hc => hchars c (List.mem_of_mem_drop hc)) negative
    fun rest hrest => exponent?_json d.leading hrest.noDigit,
    Numeral.natural?_eq_none (Or.inr (by simp))⟩

theorem writesNumber_chars {d : Decimal} (h : Trimmed d) (negative : Bool) :
    WritesNumber (sign negative ++ json.chars d) := by
  rw [chars]
  split
  · exact writesNumber_positional h negative
  · exact writesNumber_scientific d negative

/-- A finite float in JSON is a numeral but no count. It has a point or an exponent, so that no
    reader takes it for a whole number. -/
theorem writesNumber_json {x : Float} {negative : Bool} {word : Nat}
    (h : classify x = .finite negative word) : WritesNumber (json.text x).toList := by
  have htrimmed : Trimmed (if word = 0 then ⟨0, 0⟩ else Word.shortest json.tie word) := by
    split
    · exact fun _ => rfl
    · next hword => exact fun hzero => absurd hzero (Word.digits_shortest_ne_zero _ hword)
  rw [text, h, classText, String.toList_ofList]
  exact writesNumber_chars htrimmed negative

end Layout

end SolidModel
