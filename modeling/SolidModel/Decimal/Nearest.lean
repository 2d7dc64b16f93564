import SolidModel.Decimal.Word

/-!
# The Float Nearest to a Decimal

Reading a decimal as a float, in exact arithmetic.

The value is first counted in units of the least positive float, as a ratio of two naturals.
Its size decides how many of the low bits a mantissa of 53 bits cannot hold; the ratio is
divided by that spacing and rounded half to even, once. The word is then the quotient with the
spacing's exponent added above it. Where rounding up fills the mantissa, the carry runs into
the exponent and names the next binade, which is the right answer, so it needs no case of its
own.

A decimal with a huge exponent is settled before any power of ten is computed: its leading
digit alone says that it overflows, or that it is closer to zero than to the least float.

## Main definitions

* `roundDiv`: The quotient of two naturals, rounded half to even.
* `Word.nearest`: The word nearest to a ratio.
* `Decimal`: A number written with finitely many decimal digits.
* `Decimal.word?`: The word nearest to a decimal, unless it overflows.
* `Decimal.toFloat?`: The float nearest to a signed decimal, unless it overflows.
-/

namespace SolidModel

/-- The quotient rounded to the nearest natural, a half going to the even neighbour. -/
def roundDiv (num den : Nat) : Nat :=
  let quotient := num / den
  match compare (2 * (num % den)) den with
  | .lt => quotient
  | .eq => quotient + quotient % 2
  | .gt => quotient + 1

namespace Word

/-- The word nearest to the ratio `num / den`, a half going to the even mantissa. A word from
    `infinity` on says that the ratio is too large for a float. -/
def nearest (num den : Nat) : Nat :=
  let scaled := num * unitsPerOne
  let spacing := (scaled / den).log2 - 52
  spacing * Nat.pow 2 52 + roundDiv scaled (den * Nat.pow 2 spacing)

end Word

/-- The number `digits * 10 ^ exponent`. -/
structure Decimal where
  /-- The digits, read as one whole number. -/
  digits : Nat
  /-- The power of ten that the last digit stands for. -/
  exponent : Int
deriving DecidableEq, Repr

namespace Decimal

/-- The decimal digits of the digit string, most significant first. -/
def chars (d : Decimal) : List Char := Nat.toDigits 10 d.digits

/-- The power of ten of the leading digit. -/
def leading (d : Decimal) : Int := d.exponent + d.chars.length - 1

/-- The numerator of the value, over `den`. -/
def num (d : Decimal) : Nat := d.digits * Nat.pow 10 d.exponent.toNat

/-- The denominator of the value, a power of ten. -/
def den (d : Decimal) : Nat := Nat.pow 10 (-d.exponent).toNat

/-- The word nearest to the decimal, or `none` where that is infinity. Every float is below
    `10 ^ 309`, and below `10 ^ -325` everything rounds to zero, so exponents beyond are settled
    by the leading digit alone. -/
def word? (d : Decimal) : Option Nat :=
  if d.digits = 0 then some 0
  else if 310 < d.leading then none
  else if d.leading < -330 then some 0
  else
    let word := Word.nearest d.num d.den
    if word < Word.infinity then some word else none

/-- The float nearest to the decimal with the given sign, or `none` where that is infinite. -/
def toFloat? (negative : Bool) (d : Decimal) : Option Float :=
  d.word?.map fun word => (FloatClass.finite negative word).toFloat

/-- The same number without trailing zeros in its digit string. -/
def strip (d : Decimal) : Decimal :=
  if h : d.digits ≠ 0 ∧ d.digits % 10 = 0 then
    strip ⟨d.digits / 10, d.exponent + 1⟩
  else d
termination_by d.digits
decreasing_by exact Nat.div_lt_self (Nat.pos_of_ne_zero h.1) (by decide)

end Decimal

end SolidModel
