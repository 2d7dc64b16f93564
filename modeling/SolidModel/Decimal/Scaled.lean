import SolidModel.Decimal.Numeral

/-!
# Reading Numerals by Scaling

The quick way from a numeral to a float: take in a machine word of digits, make that a float,
and multiply or divide it by a power of ten.

Nothing here is exact, and the loss has three sources. Digits that do not fit the word are
dropped; the word has more bits than a mantissa and is rounded; so is the power of ten, and so
is the result of the one operation on the two. With up to fifteen digits and a power of up to
twenty-two only the last step rounds and the answer is the nearest float. Beyond that it may
miss the nearest float in the last place, also for a numeral that was written to be read back,
and two numerals of one value may be read as different floats. A numeral that is read so has to
be read so everywhere.

All of it is arithmetic on words. A power of ten is a float up to the 308th; a numeral that
needs a higher one is divided in two steps, and is zero or too large where two do not suffice.

## Main definitions

* `Word.times`, `Word.per`: The nearest product and quotient of two magnitudes.
* `Word.scaleUp?`, `Word.scaleDown`: A magnitude times or divided by a power of ten.
* `Numeral.natural?`: The number that a plain natural numeral says.
* `Numeral.gathered`: As many digits as fit a machine word.
* `Numeral.scaled?`: The float that a numeral is read as, unless it is too large.
-/

namespace SolidModel

namespace Word

/-- The word nearest to the product of two magnitudes. -/
def times (a b : Nat) : Nat := nearest (units a * units b) (unitsPerOne * unitsPerOne)

/-- The word nearest to the quotient of two magnitudes. -/
def per (a b : Nat) : Nat := nearest (units a) (units b)

/-- The highest power of ten that is a float. -/
def maxPower : Nat := 308

/-- The word nearest to a power of ten. -/
def powerOfTen (n : Nat) : Nat := nearest (Nat.pow 10 n) 1

/-- A magnitude times a power of ten, or `none` where that is infinity. -/
def scaleUp? (word n : Nat) : Option Nat :=
  if word = 0 then some 0
  else if maxPower < n then none
  else
    let product := times word (powerOfTen n)
    if product < infinity then some product else none

/-- The magnitude of a machine word of digits, divided by a power of ten. After two divisions by
    the highest power nothing is left of it. -/
def scaleDown (word n : Nat) : Nat :=
  if n ≤ maxPower then per word (powerOfTen n)
  else if n ≤ 2 * maxPower then
    per (per word (powerOfTen maxPower)) (powerOfTen (n - maxPower))
  else 0

end Word

namespace Numeral

/-- The number that the numeral says if it is written plainly, without sign, fraction or
    exponent, and fits a machine word. -/
def natural? (numeral : Numeral) : Option Nat :=
  let value := Nat.ofDigitChars 10 numeral.whole 0
  if numeral.negative = false ∧ numeral.fraction = [] ∧ numeral.exponent = none
      ∧ value < UInt64.size then some value
  else none

/-- A number with digits appended as long as it fits a machine word, and the digits from the
    first one on that do not. -/
def append (n : Nat) : List Char → Nat × List Char
  | [] => (n, [])
  | c :: rest =>
    let longer := 10 * n + (c.toNat - '0'.toNat)
    if longer < UInt64.size then append longer rest else (n, c :: rest)

/-- As many digits of the numeral as fit a machine word, and the power of ten they count. Each
    digit left out before the point raises the power, and each one taken in behind it lowers the
    power. -/
def gathered (numeral : Numeral) : Decimal :=
  let whole := append 0 numeral.whole
  let all := append whole.1 numeral.fraction
  ⟨all.1, numeral.exponent.getD 0 + whole.2.length
    - (numeral.fraction.length - all.2.length : Nat)⟩

/-- The word of the magnitude that the numeral is read as, or `none` where that is infinity. -/
def scaledWord? (numeral : Numeral) : Option Nat :=
  let word := Word.nearest numeral.gathered.digits 1
  match numeral.gathered.exponent with
  | .ofNat n => Word.scaleUp? word n
  | .negSucc n => some (Word.scaleDown word (n + 1))

/-- The float that the numeral is read as, or `none` where that is infinite. -/
def scaled? (numeral : Numeral) : Option Float :=
  numeral.scaledWord?.map fun word => (FloatClass.finite numeral.negative word).toFloat

end Numeral

end SolidModel
