import SolidModel.Decimal.Layout
import SolidModel.Decimal.Scaled

/-!
# Written Numerals

Which characters are a numeral.

A numeral is read as far as it goes, so whether some characters are one can depend on what follows
them. It does not if the text behind them begins with nothing that a numeral could go on with: a
digit, a point or the mark of an exponent. `Numeral.Ends` says that of a text, and `Numeral.Written`
says that characters are a numeral before all such texts.

The parts of a numeral are taken one after the other: digits without a needless zero in front, then
a fraction if there is a point, then an exponent if there is a mark. Each part is recognised by its
first character, and each ends at the first character that it cannot hold.

## Main definitions

* `Numeral.NoDigit`, `Numeral.Ends`: How a text must not begin.
* `Numeral.Written`: The characters are the numeral, whatever follows.

## Theorems

* `Numeral.Written.plain`, `Numeral.Written.pointed`, `Numeral.Written.marked`: The forms of a
  numeral.
* `Numeral.Written.ofText?_eq`: Characters that are a numeral are one on their own.
* `Numeral.isWhole_toDigits`: The digits of a number have no needless zero in front.
* `Numeral.written_repr`: The digits of a natural number are a numeral.
-/

namespace SolidModel

namespace Numeral

/-- The text does not begin with a digit. -/
def NoDigit (rest : List Char) : Prop := ∀ c, rest.head? = some c → c.isDigit = false

/-- No numeral goes on with the text. -/
structure Ends (rest : List Char) : Prop where
  /-- No digit follows. -/
  noDigit : NoDigit rest
  /-- No point follows. -/
  noPoint : rest.head? ≠ some '.'
  /-- No mark of an exponent follows. -/
  noMark : rest.head? ≠ some 'e' ∧ rest.head? ≠ some 'E'

/-- The characters are the numeral, whatever follows. -/
def Written (cs : List Char) (numeral : Numeral) : Prop :=
  ∀ rest, Ends rest → next? (cs ++ rest) = some (numeral, rest)

theorem noDigit_cons {c : Char} (h : c.isDigit = false) (cs : List Char) : NoDigit (c :: cs) := by
  intro d hd
  rw [List.head?_cons, Option.some.injEq] at hd
  exact hd ▸ h

theorem ends_nil : Ends [] := ⟨fun _ h => (nomatch h), by decide, by decide, by decide⟩

/-- No numeral goes on with a character that is none of its own. -/
theorem ends_cons {c : Char} (h : c.isDigit = false) (hpoint : c ≠ '.') (hmark : c ≠ 'e' ∧ c ≠ 'E')
    (cs : List Char) : Ends (c :: cs) :=
  ⟨noDigit_cons h cs, fun heq => hpoint (Option.some.inj heq),
    fun heq => hmark.1 (Option.some.inj heq), fun heq => hmark.2 (Option.some.inj heq)⟩

/-- A numeral begins with a digit or a sign. -/
theorem Written.head {cs : List Char} {numeral : Numeral} (h : Written cs numeral) :
    ∃ c tail, cs = c :: tail ∧ (c.isDigit = true ∨ c = '-') := by
  have hnext := h [] ends_nil
  rw [List.append_nil] at hnext
  cases cs with
  | nil => exact absurd hnext (by simp [next?, unsigned?, digits, isWhole])
  | cons c tail =>
      refine ⟨c, tail, rfl, ?_⟩
      rw [next?.eq_def] at hnext
      split at hnext
      · next heq => exact Or.inr (List.cons.inj heq).1
      · cases hdigit : c.isDigit with
        | true => exact Or.inl rfl
        | false =>
            rw [unsigned?, digits, List.takeWhile_cons, hdigit] at hnext
            exact absurd hnext (by simp [isWhole])

/-- Characters that are a numeral are one on their own. -/
theorem Written.ofText?_eq {text : String} {numeral : Numeral} (h : Written text.toList numeral) :
    ofText? text = some numeral := by
  have hnext := h [] ends_nil
  rw [List.append_nil] at hnext
  rw [ofText?, hnext]

/-! ## Parts -/

section Parts

variable {ds rest : List Char} (hds : ∀ c ∈ ds, c.isDigit)

include hds

theorem digits_append_eq (hrest : NoDigit rest) : digits (ds ++ rest) = (ds, rest) := by
  rw [digits, List.takeWhile_append_of_pos hds, List.dropWhile_append_of_pos hds]
  cases rest with
  | nil => rw [List.takeWhile_nil, List.dropWhile_nil, List.append_nil]
  | cons c rest =>
      rw [List.takeWhile_cons, List.dropWhile_cons, hrest c rfl]
      exact Prod.ext (List.append_nil ds) rfl

theorem fraction?_point (hne : ds ≠ []) (hrest : NoDigit rest) :
    fraction? ('.' :: (ds ++ rest)) = some (ds, rest) := by
  rw [fraction?, digits_append_eq hds hrest]
  exact if_neg (by rwa [List.isEmpty_iff])

theorem exponent?_mark (negative : Bool) (hne : ds ≠ []) (hrest : NoDigit rest) :
    exponent? ('e' :: (if negative then '-' else '+') :: (ds ++ rest)) =
      some (some (if negative then -(Nat.ofDigitChars 10 ds 0 : Int)
        else (Nat.ofDigitChars 10 ds 0 : Int)), rest) := by
  have hsign : exponentSign ((if negative then '-' else '+') :: (ds ++ rest)) =
      (negative, ds ++ rest) := by
    cases negative <;> rfl
  rw [exponent?, if_pos (Or.inl rfl), hsign]
  simp only [digits_append_eq hds hrest, List.isEmpty_iff, hne, ↓reduceIte]

/-- An exponent is read as the number whose digits stand behind its sign. -/
theorem exponent?_signed {e : Int} (hne : ds ≠ []) (hvalue : Nat.ofDigitChars 10 ds 0 = e.natAbs)
    (hrest : NoDigit rest) :
    exponent? ('e' :: (if e < 0 then '-' else '+') :: (ds ++ rest)) = some (some e, rest) := by
  have hread := exponent?_mark hds (decide (e < 0)) hne hrest
  simp only [hvalue, decide_eq_true_eq] at hread
  rw [hread]
  refine congrArg (fun k => some (some k, rest)) ?_
  split <;> omega

end Parts

theorem fraction?_none {rest : List Char} (h : rest.head? ≠ some '.') :
    fraction? rest = some ([], rest) := by
  unfold fraction?
  split
  · exact absurd rfl h
  · rfl

theorem exponent?_none {rest : List Char} (h : rest.head? ≠ some 'e' ∧ rest.head? ≠ some 'E') :
    exponent? rest = some (none, rest) := by
  unfold exponent?
  split
  · next c rest =>
      have hc : ¬(c = 'e' ∨ c = 'E') := fun hc =>
        hc.elim (fun hc => h.1 (congrArg some hc)) fun hc => h.2 (congrArg some hc)
      rw [if_neg hc]
  · rfl

theorem unsigned?_parts {negative : Bool} {whole fraction tail tail' rest : List Char}
    {exponent : Option Int} (hdigits : ∀ c ∈ whole, c.isDigit) (hwhole : isWhole whole = true)
    (htail : NoDigit tail) (hfraction : fraction? tail = some (fraction, tail'))
    (hexponent : exponent? tail' = some (exponent, rest)) :
    unsigned? negative (whole ++ tail) = some (⟨negative, whole, fraction, exponent⟩, rest) := by
  rw [unsigned?, digits_append_eq hdigits htail, if_pos hwhole, hfraction]
  simp only [Option.bind_eq_bind, Option.bind_some, hexponent, Option.pure_def]

/-! ## Forms -/

section Forms

variable {whole fraction : List Char} (hdigits : ∀ c ∈ whole, c.isDigit)
  (hwhole : isWhole whole = true)

include hdigits hwhole

/-- A sign is no digit, so the digits behind it are read as they are without it. -/
theorem next?_sign (negative : Bool) (tail : List Char) :
    next? (Layout.sign negative ++ (whole ++ tail)) = unsigned? negative (whole ++ tail) := by
  cases negative with
  | true => rfl
  | false =>
      cases whole with
      | nil => exact absurd hwhole (by decide)
      | cons c whole =>
          have hc : c ≠ '-' := by
            rintro rfl
            exact absurd (hdigits '-' List.mem_cons_self) (by decide)
          unfold next?
          split
          · next h => exact absurd (List.cons.inj h).1 hc
          · rfl

/-- A numeral that is nothing but digits. -/
theorem Written.plain (negative : Bool) :
    Written (Layout.sign negative ++ whole) ⟨negative, whole, [], none⟩ := by
  intro rest hrest
  rw [List.append_assoc, next?_sign hdigits hwhole]
  exact unsigned?_parts hdigits hwhole hrest.noDigit (fraction?_none hrest.noPoint)
    (exponent?_none hrest.noMark)

variable (hfraction : ∀ c ∈ fraction, c.isDigit)

include hfraction

/-- A numeral with digits on both sides of a point. -/
theorem Written.pointed (negative : Bool) (hne : fraction ≠ []) :
    Written (Layout.sign negative ++ (whole ++ '.' :: fraction))
      ⟨negative, whole, fraction, none⟩ := by
  intro rest hrest
  rw [List.append_assoc, List.append_assoc, next?_sign hdigits hwhole]
  exact unsigned?_parts hdigits hwhole (noDigit_cons rfl _)
    (fraction?_point hfraction hne hrest.noDigit) (exponent?_none hrest.noMark)

/-- A numeral with an exponent, whose value is up to the characters behind the mark. They may be
    those of any form, with a sign or without, as long as they are read as that exponent whatever
    follows. -/
theorem Written.marked (negative : Bool) {marked : List Char} {e : Int}
    (hmarked : ∀ rest, Ends rest → exponent? ('e' :: (marked ++ rest)) = some (some e, rest)) :
    Written (Layout.sign negative ++
        (whole ++ ((if fraction.isEmpty then [] else '.' :: fraction) ++ 'e' :: marked)))
      ⟨negative, whole, fraction, some e⟩ := by
  intro rest hrest
  rw [List.append_assoc, List.append_assoc, next?_sign hdigits hwhole]
  cases fraction with
  | nil =>
      exact unsigned?_parts hdigits hwhole (noDigit_cons rfl _) (fraction?_none (by simp))
        (hmarked rest hrest)
  | cons c fraction =>
      rw [List.isEmpty_cons, if_neg Bool.false_ne_true, List.append_assoc]
      exact unsigned?_parts hdigits hwhole (noDigit_cons rfl _)
        (fraction?_point hfraction (List.cons_ne_nil _ _) (noDigit_cons rfl _)) (hmarked rest hrest)

end Forms

/-! ## Digits of numbers -/

theorem isDigit_toDigits (n : Nat) : ∀ c ∈ Nat.toDigits 10 n, c.isDigit := fun _ hc =>
  Nat.isDigit_of_mem_toDigits (by decide) (by decide) hc

theorem head?_append_of_ne_nil {cs : List Char} (h : cs ≠ []) (ds : List Char) :
    (cs ++ ds).head? = cs.head? := by
  cases cs with
  | nil => exact absurd rfl h
  | cons c cs => rfl

theorem head?_toDigits_ne_zero {n : Nat} (h : 0 < n) : (Nat.toDigits 10 n).head? ≠ some '0' := by
  -- The first digit is that of the number without its last digit, until there is one digit.
  induction n using Nat.strongRecOn with
  | ind n ih =>
      rcases Nat.lt_or_ge n 10 with hlt | hge
      · rw [Nat.toDigits_of_lt_base hlt]
        have hall : ∀ m : Fin 10, 0 < m.val → [Nat.digitChar m.val].head? ≠ some '0' := by decide
        exact hall ⟨n, hlt⟩ h
      · rw [Nat.toDigits_of_base_le (by decide) hge, head?_append_of_ne_nil Nat.toDigits_ne_nil]
        exact ih (n / 10) (by omega) (by omega)

theorem isWhole_of_head? {ds : List Char} (hne : ds ≠ []) (h : ds.head? ≠ some '0') :
    isWhole ds = true := by
  rcases ds with _ | ⟨c, _ | ⟨d, ds⟩⟩
  · exact absurd rfl hne
  · rfl
  · exact bne_iff_ne.mpr fun hc => h (congrArg some hc)

/-- The digits of a number have no needless zero in front. -/
theorem isWhole_toDigits (n : Nat) : isWhole (Nat.toDigits 10 n) = true := by
  rcases Nat.eq_zero_or_pos n with rfl | hn
  · rfl
  · exact isWhole_of_head? Nat.toDigits_ne_nil (head?_toDigits_ne_zero hn)

/-- The digits of a natural number are a numeral. -/
theorem written_repr (n : Nat) :
    Written (Nat.repr n).toList ⟨false, Nat.toDigits 10 n, [], none⟩ := by
  rw [Nat.repr, String.toList_ofList]
  exact Written.plain (isDigit_toDigits n) (isWhole_toDigits n) false

end Numeral

end SolidModel
