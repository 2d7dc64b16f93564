import SolidModel.Decimal.Nearest

/-!
# Numerals

Numbers as they are written.

A numeral is kept apart from its value because it has several. It says a decimal exactly, and
the float nearest to that decimal is one way to read it; taking its digits in until they no
longer fit a machine word is another. What counts as a numeral is strict and the same for all:
no needless zero in front, digits on both sides of a point, and at least one digit behind the
mark of an exponent.

## Main definitions

* `Numeral`: A number as it is written.
* `Numeral.next?`: The numeral at the beginning of a text.
* `Numeral.ofText?`: The numeral that a whole text is.
* `Numeral.decimal`: What a numeral says, without its sign.
* `Numeral.nearest`: The float nearest to a numeral.

## Theorems

* `Numeral.next?_length`: A numeral takes at least one character.
-/

namespace SolidModel

/-- A number as it is written: a sign, the digits on the two sides of the point, and an exponent
    if there is one. -/
structure Numeral where
  /-- Whether there is a minus sign. -/
  negative : Bool
  /-- The digits before the point. -/
  whole : List Char
  /-- The digits behind the point. There are none if there is no point. -/
  fraction : List Char
  /-- The power of ten behind the mark, if there is a mark. -/
  exponent : Option Int
deriving DecidableEq, Repr

namespace Numeral

/-- The leading digits of a text, and what follows them. -/
def digits (cs : List Char) : List Char × List Char :=
  (cs.takeWhile Char.isDigit, cs.dropWhile Char.isDigit)

/-- Digits before the point: at least one, and no zero before others. -/
def isWhole : List Char → Bool
  | [] => false
  | [_] => true
  | c :: _ => c != '0'

/-- The digits of a fraction, of which there is at least one if there is a point. -/
def fraction? : List Char → Option (List Char × List Char)
  | '.' :: rest => if (digits rest).1.isEmpty then none else some (digits rest)
  | cs => some ([], cs)

/-- The sign of an exponent. -/
def exponentSign : List Char → Bool × List Char
  | '-' :: rest => (true, rest)
  | '+' :: rest => (false, rest)
  | cs => (false, cs)

/-- An exponent, which has at least one digit if it has a mark. -/
def exponent? : List Char → Option (Option Int × List Char)
  | c :: rest =>
    if c = 'e' ∨ c = 'E' then
      let signed := exponentSign rest
      let run := digits signed.2
      let n : Int := Nat.ofDigitChars 10 run.1 0
      if run.1.isEmpty then none else some (some (if signed.1 then -n else n), run.2)
    else some (none, c :: rest)
  | [] => some (none, [])

/-- A numeral behind its sign. -/
def unsigned? (negative : Bool) (cs : List Char) : Option (Numeral × List Char) :=
  if isWhole (digits cs).1 then do
    let (fraction, rest) ← fraction? (digits cs).2
    let (exponent, rest) ← exponent? rest
    pure (⟨negative, (digits cs).1, fraction, exponent⟩, rest)
  else none

/-- The numeral at the beginning of a text, and what follows it. -/
def next? : List Char → Option (Numeral × List Char)
  | '-' :: rest => unsigned? true rest
  | cs => unsigned? false cs

/-- The numeral that a whole text is. -/
def ofText? (text : String) : Option Numeral :=
  match next? text.toList with
  | some (numeral, []) => some numeral
  | _ => none

/-- What the numeral says, without its sign. -/
def decimal (numeral : Numeral) : Decimal :=
  ⟨Nat.ofDigitChars 10 (numeral.whole ++ numeral.fraction) 0,
    numeral.exponent.getD 0 - numeral.fraction.length⟩

/-- The float nearest to the numeral, which is infinite if the numeral is too large for any
    other. -/
def nearest (numeral : Numeral) : Float :=
  (numeral.decimal.toFloat? numeral.negative).getD (FloatClass.infinite numeral.negative).toFloat

/-- Digits and what follows them make up the text. -/
theorem digits_append (cs : List Char) : (digits cs).1 ++ (digits cs).2 = cs :=
  List.takeWhile_append_dropWhile

theorem digits_length (cs : List Char) :
    (digits cs).1.length + (digits cs).2.length = cs.length := by
  rw [← List.length_append, digits_append]

theorem fraction?_length {cs ds rest : List Char} (h : fraction? cs = some (ds, rest)) :
    rest.length ≤ cs.length := by
  unfold fraction? at h
  split at h
  · next tail =>
      have hlen := digits_length tail
      split at h
      · exact absurd h (by simp)
      · simp only [Option.some.injEq, Prod.ext_iff] at h
        rw [← h.2, List.length_cons]
        omega
  · simp only [Option.some.injEq, Prod.mk.injEq] at h
    exact Nat.le_of_eq (congrArg List.length h.2.symm)

theorem exponentSign_length (cs : List Char) : (exponentSign cs).2.length ≤ cs.length := by
  unfold exponentSign
  split
  · exact Nat.le_succ _
  · exact Nat.le_succ _
  · exact Nat.le_refl _

theorem exponent?_length {cs rest : List Char} {e : Option Int}
    (h : exponent? cs = some (e, rest)) : rest.length ≤ cs.length := by
  unfold exponent? at h
  split at h
  · next c tail =>
      have hsign := exponentSign_length tail
      have hlen := digits_length (exponentSign tail).2
      split at h
      · simp only at h
        split at h
        · exact absurd h (by simp)
        · simp only [Option.some.injEq, Prod.mk.injEq] at h
          rw [← h.2, List.length_cons]
          omega
      · simp only [Option.some.injEq, Prod.mk.injEq] at h
        exact Nat.le_of_eq (congrArg List.length h.2.symm)
  · simp only [Option.some.injEq, Prod.mk.injEq] at h
    exact Nat.le_of_eq (congrArg List.length h.2.symm)

theorem isWhole_length {cs : List Char} (h : isWhole cs = true) : 0 < cs.length := by
  cases cs with
  | nil => exact absurd h (by decide)
  | cons c rest => simp only [List.length_cons]; omega

theorem unsigned?_length {negative : Bool} {cs rest : List Char} {numeral : Numeral}
    (h : unsigned? negative cs = some (numeral, rest)) : rest.length < cs.length := by
  unfold unsigned? at h
  have hlen := digits_length cs
  split at h
  · next hw =>
      have hpos := isWhole_length hw
      simp only [Option.bind_eq_bind, Option.bind_eq_some_iff] at h
      rcases h with ⟨⟨f, r1⟩, hf, ⟨e, r2⟩, he, hp⟩
      simp only [Option.pure_def, Option.some.injEq, Prod.mk.injEq] at hp
      have h1 := fraction?_length hf
      have h2 : r2.length ≤ r1.length := exponent?_length he
      rw [← hp.2]
      omega
  · exact absurd h (by simp)

/-- A numeral takes at least one character. -/
theorem next?_length {cs rest : List Char} {numeral : Numeral}
    (h : next? cs = some (numeral, rest)) : rest.length < cs.length := by
  unfold next? at h
  split at h
  · have := unsigned?_length h
    rw [List.length_cons]
    omega
  · exact unsigned?_length h

end Numeral

end SolidModel
