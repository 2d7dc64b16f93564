import SolidModel.Decimal.Shortest

/-!
# Laying Out Decimals

Where the point goes, and when an exponent is written.

Numbers leave this library in full in three forms: in JSON, in source text for the modeller, and
in records inside messages. The digits differ only in the rule for ties. The rest is layout, and
the three layouts differ in a handful of decisions. So there is one function,
`Layout.positional` or `Layout.scientific` by the exponent of the leading digit, and one record
value per form.

## Main definitions

* `Layout`: The decisions a number form makes.
* `Layout.chars`: A decimal laid out.
* `Layout.text`: A float in its shortest form, with sign and special values.
* `Layout.json`, `Layout.source`, `Layout.record`: The three forms.
-/

namespace SolidModel

/-- The decisions a number form makes. -/
structure Layout where
  /-- Which powers of ten of the leading digit are written positionally. -/
  isPositional : Int → Bool
  /-- Whether a whole number ends in `.0`. -/
  pointZero : Bool
  /-- Whether a positive exponent has a sign. -/
  exponentPlus : Bool
  /-- Which of two equally near shortest decimals is taken. -/
  tie : Tie

namespace Layout

/-- Digits with the point in its place: after them, among them or before them. -/
def positional (layout : Layout) (d : Decimal) : List Char :=
  if 0 ≤ d.exponent then
    d.chars ++ List.replicate d.exponent.toNat '0' ++ (if layout.pointZero then ['.', '0'] else [])
  else if 0 ≤ d.leading then
    d.chars.take (d.leading + 1).toNat ++ '.' :: d.chars.drop (d.leading + 1).toNat
  else
    '0' :: '.' :: List.replicate (-d.leading - 1).toNat '0' ++ d.chars

/-- The exponent of a scientific form, with its sign. -/
def exponent (layout : Layout) (e : Int) : List Char :=
  let sign := if e < 0 then ['-'] else if layout.exponentPlus then ['+'] else []
  sign ++ Nat.toDigits 10 e.natAbs

/-- One digit before the point, the others behind it, and an exponent. -/
def scientific (layout : Layout) (d : Decimal) : List Char :=
  let fraction := d.chars.drop 1
  d.chars.take 1 ++ (if fraction.isEmpty then [] else '.' :: fraction)
    ++ 'e' :: layout.exponent d.leading

/-- A decimal laid out. It has no trailing zeros. -/
def chars (layout : Layout) (d : Decimal) : List Char :=
  if layout.isPositional d.leading then layout.positional d else layout.scientific d

/-- The sign of a number form. -/
def sign (negative : Bool) : List Char := if negative then ['-'] else []

/-- A float with its sign, its magnitude being written as `magnitude` of the word. A zero keeps its
    sign, and the values that are not finite have names. -/
def classText (magnitude : Nat → List Char) : FloatClass → String
  | .notANumber => "NaN"
  | .infinite negative => String.ofList (sign negative ++ ['i', 'n', 'f'])
  | .finite negative word => String.ofList (sign negative ++ magnitude word)

/-- A float in its shortest form. -/
def text (layout : Layout) (x : Float) : String :=
  let decimal := fun word => if word = 0 then ⟨0, 0⟩ else Word.shortest layout.tie word
  classText (fun word => layout.chars (decimal word)) (classify x)

/-- Numbers in JSON: positional from `10 ^ -5` to below `10 ^ 16`, else with a signed
    exponent. -/
def json : Layout where
  isPositional e := decide (-5 ≤ e ∧ e < 16)
  pointZero := true
  exponentPlus := true
  tie := .toEven

/-- Numbers in source text: never an exponent, and nothing behind a whole number. -/
def source : Layout where
  isPositional _ := true
  pointZero := false
  exponentPlus := false
  tie := .upward

/-- Numbers in records: positional from `10 ^ -4` to below `10 ^ 16`, else with a bare
    exponent. -/
def record : Layout where
  isPositional e := decide (-4 ≤ e ∧ e < 16)
  pointZero := true
  exponentPlus := false
  tie := .upward

end Layout

end SolidModel
