/-!
# Floats as Words

What a float is, said in natural numbers.

Every finite float is a whole multiple of the least positive one, `2 ^ -1074`. Forgetting the
sign, a float is therefore two natural numbers: the *word* of its magnitude, which is its bit
pattern below the sign bit, and the number of *units* of `2 ^ -1074` that this word stands
for. Words are ordered as the magnitudes are, and the next word up is the next float up, so
that a carry out of the mantissa lands in the exponent by plain addition.

Printing and reading both work on words and units. No float operation takes part, and so
nothing here is subject to rounding. Powers are those of `Nat.pow` itself.

## Main definitions

* `Word.units`: The magnitude of a word, counted in units of `2 ^ -1074`.
* `Word.infinity`: The first word that is no finite magnitude.
* `FloatClass`: A float told apart by sign and kind.
* `classify`: The class of a float.
* `FloatClass.toFloat`: The float of a class.
-/

namespace SolidModel

namespace Word

/-- The least positive float is one unit, `1 / unitsPerOne`. -/
def unitsPerOne : Nat := Nat.pow 2 1074

/-- The exponent field of a word, which stands above 52 fraction bits. -/
def field (word : Nat) : Nat := word / Nat.pow 2 52

/-- The mantissa of a word: the fraction bits, with the hidden bit above them unless the
    exponent field is zero. -/
def mantissa (word : Nat) : Nat :=
  if field word = 0 then word % Nat.pow 2 52 else Nat.pow 2 52 + word % Nat.pow 2 52

/-- The magnitude of a word, counted in units. Fields zero and one share one spacing, which
    is what the truncated subtraction says. -/
def units (word : Nat) : Nat := mantissa word * Nat.pow 2 (field word - 1)

/-- The word of infinity, above every finite word. The words above it are not numbers. -/
def infinity : Nat := 2047 * Nat.pow 2 52

end Word

/-- A float told apart by sign and kind. A finite one is given by the word of its magnitude. -/
inductive FloatClass where
  | notANumber
  | infinite (negative : Bool)
  | finite (negative : Bool) (word : Nat)
deriving DecidableEq, Repr

/-- The class of a float, read off its bits: the top bit is the sign and the other 63 are the
    word. -/
def classify (x : Float) : FloatClass :=
  let bits := x.toBits.toNat
  let negative := decide (Nat.pow 2 63 ≤ bits)
  let word := bits % Nat.pow 2 63
  if word < Word.infinity then .finite negative word
  else if word = Word.infinity then .infinite negative
  else .notANumber

namespace FloatClass

/-- The bits of a sign and a word. -/
def bits (negative : Bool) (word : Nat) : Nat := if negative then Nat.pow 2 63 + word else word

/-- The float of a class. -/
def toFloat : FloatClass → Float
  | .notANumber => Float.ofBits (UInt64.ofNat (bits false (Word.infinity + Nat.pow 2 51)))
  | .infinite negative => Float.ofBits (UInt64.ofNat (bits negative Word.infinity))
  | .finite negative word => Float.ofBits (UInt64.ofNat (bits negative word))

end FloatClass

end SolidModel
