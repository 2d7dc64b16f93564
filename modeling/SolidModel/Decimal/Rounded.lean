import SolidModel.Decimal.Layout

/-!
# Rounded Numbers

Numbers for a reader's eye, with three significant digits.

A number is rounded twice. The first rounding brings it into scientific form, and tells where the
leading digit stands. That is not where it stands in the number itself if all digits round up:
`99.96` counts as one hundred. If the leading digit stands near the point, the number is written
out with a point, and with as many places behind it as make up three digits. These digits come
from a second rounding, to that number of places, of the exact value and not of the digits that
the first has left. Otherwise the scientific form is what is written.

Both forms are trimmed as texts. What is written out keeps at least one place behind the point,
and a mantissa does not keep a point without places.

## Main definitions

* `Word.steps`: The magnitude rounded to a multiple of a power of ten.
* `Word.scientific`: The magnitude rounded to a number of significant digits.
* `Word.fixed`: The magnitude rounded to a number of places.
* `trimEnd`: A text without the characters of one kind at its end.
* `Word.rounded`: The rounded magnitude as it is written.
* `showRounded`: A float rounded to three significant digits.
-/

namespace SolidModel

/-- The digits of a number, with zeros in front of them up to a width. -/
def padded (width n : Nat) : List Char :=
  List.replicate (width - (Nat.toDigits 10 n).length) '0' ++ Nat.toDigits 10 n

/-- Digits before and behind a point, which is left out if there are none behind it. -/
def pointed (whole fraction : List Char) : List Char :=
  whole ++ (if fraction.isEmpty then [] else '.' :: fraction)

/-- The text without the characters at its end that are a given one. -/
def trimEnd (c : Char) (text : List Char) : List Char := (text.reverse.dropWhile (· == c)).reverse

/-- The mantissa of a scientific form: the first digit, and the others behind the point. -/
def Decimal.mantissa (d : Decimal) : List Char := pointed (d.chars.take 1) (d.chars.drop 1)

namespace Word

/-- The magnitude in steps of `10 ^ g`, rounded half to even from its exact value. -/
def steps (word : Nat) (g : Int) : Nat := roundDiv (gridNum word g) (gridDen g)

/-- The magnitude rounded to `count` significant digits. If all of them round up, there is one
    digit more, and the leading digit is at the next power of ten. -/
def scientific (count word : Nat) : Decimal :=
  let g := leading word - count + 1
  let digits := steps word g
  if digits = Nat.pow 10 count then ⟨Nat.pow 10 (count - 1), g + 1⟩ else ⟨digits, g⟩

/-- The magnitude rounded to a number of places behind the point, with a digit before it. -/
def fixed (places word : Nat) : List Char :=
  let digits := padded (places + 1) (steps word (-places))
  pointed (digits.take (digits.length - places)) (digits.drop (digits.length - places))

end Word

/-- What is written out, without zeros at the end, but with one place behind the point. -/
def trimFixed (text : List Char) : List Char :=
  let trimmed := trimEnd '0' text
  if trimmed.getLast? = some '.' then trimmed ++ ['0'] else trimmed

/-- A mantissa without zeros at the end, and without a point that nothing follows. -/
def trimMantissa (text : List Char) : List Char :=
  if text.contains '.' then trimEnd '.' (trimEnd '0' text) else text

/-- The exponent of a rounded number, with its sign and with at least two digits. -/
def roundedExponent (e : Int) : List Char :=
  (if e < 0 then '-' else '+') :: padded 2 e.natAbs

/-- The magnitude rounded to `count` significant digits: written out if the leading digit is at
    `10 ^ -4` or above and not all digits are before the point, else in scientific form. -/
def Word.rounded (count word : Nat) : List Char :=
  let d := scientific count word
  if -4 ≤ d.leading ∧ d.leading < (count : Int) - 1 then
    trimFixed (fixed ((count : Int) - 1 - d.leading).toNat word)
  else
    trimMantissa d.mantissa ++ 'e' :: roundedExponent d.leading

/-- How many digits of a number are shown. -/
def shownDigits : Nat := 3

/-- A float rounded to the digits that are shown. -/
def showRounded (x : Float) : String :=
  let magnitude := fun word => if word = 0 then ['0', '.', '0'] else Word.rounded shownDigits word
  Layout.classText magnitude (classify x)

end SolidModel
