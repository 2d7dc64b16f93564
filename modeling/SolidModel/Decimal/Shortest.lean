import SolidModel.Decimal.Nearest

/-!
# Decimals of a Float

Choosing the decimal digits that stand for a float.

A float that will be read again gets the fewest digits that read back as that very float. The
choice works on a grid: with the leading digit at `10 ^ e`, the decimals of `count` digits are
the multiples of `10 ^ (e - count + 1)`, and the two neighbours of the value on that grid are all
that has to be looked at, because what reads back is an interval around the value.

Reading back is decided by reading, with `Word.nearest`, and not by a description of the
interval. That the chosen digits read back therefore holds by construction in every branch.

Two decimals of one length can be equally near. Printers differ there, so the rule is an
argument.

## Main definitions

* `Tie`: Which of two equally near decimals is taken.
* `Word.leading`: The power of ten of the leading digit of a word's magnitude.
* `Word.gridNum`, `Word.gridDen`: The magnitude over the spacing of a grid.
* `Word.shortest`: The shortest decimal that reads back.
-/

namespace SolidModel

/-- Which of two equally near decimals of one length is taken. -/
inductive Tie where
  | toEven
  | upward
deriving DecidableEq, Repr

namespace Word

/-- The power of ten of the leading digit of the ratio `num / den`, which is positive. Below one
    it is counted on the inverse, rounded up. -/
def leadingOf (num den : Nat) : Int :=
  if den ≤ num then ((Nat.toDigits 10 (num / den)).length : Int) - 1
  else -((Nat.toDigits 10 ((den - 1) / num)).length : Int)

/-- The power of ten of the leading digit of a word's magnitude. -/
def leading (word : Nat) : Int := leadingOf (units word) unitsPerOne

/-- The magnitude of a word over the grid spacing `10 ^ g`, as a numerator over
    `gridDen`. -/
def gridNum (word : Nat) (g : Int) : Nat := units word * Nat.pow 10 (-g).toNat

/-- The denominator under `gridNum`. -/
def gridDen (g : Int) : Nat := unitsPerOne * Nat.pow 10 g.toNat

/-- Whether reading the decimal gives this word. -/
def readsBack (word : Nat) (d : Decimal) : Bool := nearest d.num d.den == word

/-- Which of two neighbours on a grid is taken, given which of them read back. If both do, the side
    of their middle on which the value lies decides, and in the middle the tie. -/
def nearer? (tie : Tie) (side : Ordering) (low high : Decimal) : Bool → Bool → Option Decimal
  | false, false => none
  | true, false => some low
  | false, true => some high
  | true, true =>
    match side, tie with
    | .lt, _ => some low
    | .gt, _ => some high
    | .eq, .upward => some high
    | .eq, .toEven => some (if low.digits % 2 = 0 then low else high)

/-- The nearer of the two neighbours on the grid of `count` digits, among those that read
    back. -/
def candidate? (tie : Tie) (word count : Nat) : Option Decimal :=
  let g := leading word - count + 1
  let below := gridNum word g / gridDen g
  let low : Decimal := ⟨below, g⟩
  let high : Decimal := ⟨below + 1, g⟩
  nearer? tie (compare (2 * gridNum word g) ((2 * below + 1) * gridDen g)) low high
    (readsBack word low) (readsBack word high)

/-- The magnitude of a word in full. Every power of two is a decimal. -/
def exact (word : Nat) : Decimal := ⟨units word * Nat.pow 5 1074, -1074⟩

/-- The decimal with the fewest digits that reads back, without trailing zeros. Seventeen
    digits are enough for every float; the exact value closes the search, so that whatever is
    returned reads back. -/
def shortest (tie : Tie) (word : Nat) : Decimal :=
  let found := (List.range 17).findSome? fun count => candidate? tie word (count + 1)
  (found.getD (exact word)).strip

end Word

end SolidModel
