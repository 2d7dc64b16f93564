import SolidModel.Decimal.Scaled

/-!
# JSON Tokens

The words of a JSON text.

Cutting a text into tokens and putting tokens together are different questions. The first is
about characters: what a string may hold, how a number is written, which white space there is.
All of it is strict. A number is a numeral, and a string holds no bare control character.

A token may have the right form and still say nothing. A number may be too large for a float.
A string may hold half a character, since a character beyond the first plane is written as two
numbered escapes and one of them may be missing. Such a token is no fault of the text: whether
it matters is for whoever needs its value to say. So numbers and strings come without a value
where they have none.

## Main definitions

* `Token`: A word of a JSON text.
* `Token.Symbol`: What stands for a character or half of one in a string.
* `Token.symbols?`: The rest of a string after its opening quote.
* `Token.joined?`: The characters of symbols, halves joined in pairs.
* `Token.next?`: The first token of a text that does not begin with white space.
* `Token.ofChars?`: All tokens of a text.

## Theorems

* `Token.next?_length`: A token takes at least one character.
-/

namespace SolidModel

/-- A word of a JSON text. -/
inductive Token where
  | openArray
  | closeArray
  | openObject
  | closeObject
  | comma
  | colon
  | null
  | bool (value : Bool)
  /-- A natural number written plainly and fitting a machine word. -/
  | natural (value : Nat)
  /-- Any other number, without a value if it is too large for a float. -/
  | number (value : Option Float)
  /-- A string, without a value if it holds half a character. -/
  | string (value : Option String)
deriving DecidableEq

namespace Token

/-- What stands for a character in a string, or for half of one. -/
inductive Symbol where
  | char (c : Char)
  /-- A numbered escape for half of a character. -/
  | half (n : Nat)
deriving DecidableEq, Repr

/-- White space between tokens. -/
def isSpace (c : Char) : Bool := c == ' ' || c == '\n' || c == '\r' || c == '\t'

/-- The value of a hexadecimal digit. -/
def hexValue? (c : Char) : Option Nat :=
  if '0' ≤ c ∧ c ≤ '9' then some (c.toNat - '0'.toNat)
  else if 'a' ≤ c ∧ c ≤ 'f' then some (c.toNat - 'a'.toNat + 10)
  else if 'A' ≤ c ∧ c ≤ 'F' then some (c.toNat - 'A'.toNat + 10)
  else none

/-- The number of four hexadecimal digits. -/
def hex? (a b c d : Char) : Option Nat := do
  let a ← hexValue? a
  let b ← hexValue? b
  let c ← hexValue? c
  let d ← hexValue? d
  pure (((a * 16 + b) * 16 + c) * 16 + d)

/-- The character behind a backslash, apart from numbered ones. -/
def escaped? (c : Char) : Option Char :=
  if c = '"' then some '"'
  else if c = '\\' then some '\\'
  else if c = '/' then some '/'
  else if c = 'b' then some '\x08'
  else if c = 'f' then some '\x0c'
  else if c = 'n' then some '\n'
  else if c = 'r' then some '\r'
  else if c = 't' then some '\t'
  else none

/-- Whether a 16-bit number is the first half of a pair. -/
def isHighHalf (n : Nat) : Bool := decide (0xD800 ≤ n ∧ n < 0xDC00)

/-- Whether a 16-bit number is the second half of a pair. -/
def isLowHalf (n : Nat) : Bool := decide (0xDC00 ≤ n ∧ n < 0xE000)

/-- The character of a pair of halves. -/
def pairChar (high low : Nat) : Char :=
  Char.ofNat (0x10000 + (high - 0xD800) * 0x400 + (low - 0xDC00))

/-- The symbol of a numbered escape. -/
def Symbol.ofNumber (n : Nat) : Symbol :=
  if isHighHalf n || isLowHalf n then .half n else .char (Char.ofNat n)

/-- Put a symbol in front of what is read after it. -/
def consSymbol (s : Symbol) : Option (List Symbol × List Char) → Option (List Symbol × List Char)
  | none => none
  | some (symbols, rest) => some (s :: symbols, rest)

/-- The symbols of a string up to its closing quote, and what follows the quote. -/
def symbols? : List Char → Option (List Symbol × List Char)
  | '"' :: rest => some ([], rest)
  | '\\' :: 'u' :: a :: b :: c :: d :: rest =>
    match hex? a b c d with
    | none => none
    | some n => consSymbol (.ofNumber n) (symbols? rest)
  | '\\' :: c :: rest =>
    match escaped? c with
    | none => none
    | some c => consSymbol (.char c) (symbols? rest)
  | c :: rest =>
    if c = '\\' ∨ c.toNat < 32 then none else consSymbol (.char c) (symbols? rest)
  | [] => none

/-- The characters of symbols. The first half of a character has to be followed by the second,
    and the second stands nowhere else. -/
def joined? : List Symbol → Option (List Char)
  | [] => some []
  | .char c :: rest => (joined? rest).map (c :: ·)
  | .half high :: .half low :: rest =>
    if isHighHalf high && isLowHalf low then (joined? rest).map (pairChar high low :: ·) else none
  | .half _ :: _ => none

/-- A string behind its opening quote. -/
def string? (cs : List Char) : Option (Token × List Char) :=
  (symbols? cs).map fun (symbols, rest) => (.string ((joined? symbols).map String.ofList), rest)

/-- The token of a numeral. Only a plain natural that fits a machine word stays one. -/
def ofNumeral (numeral : Numeral) : Token :=
  match numeral.natural? with
  | some value => .natural value
  | none => .number numeral.scaled?

/-- A number. -/
def number? (cs : List Char) : Option (Token × List Char) :=
  (Numeral.next? cs).map fun (numeral, rest) => (ofNumeral numeral, rest)

/-- The first token of a text that does not begin with white space, and what follows it. -/
def next? : List Char → Option (Token × List Char)
  | '[' :: rest => some (.openArray, rest)
  | ']' :: rest => some (.closeArray, rest)
  | '\x7b' :: rest => some (.openObject, rest)
  | '\x7d' :: rest => some (.closeObject, rest)
  | ',' :: rest => some (.comma, rest)
  | ':' :: rest => some (.colon, rest)
  | 'n' :: 'u' :: 'l' :: 'l' :: rest => some (.null, rest)
  | 't' :: 'r' :: 'u' :: 'e' :: rest => some (.bool true, rest)
  | 'f' :: 'a' :: 'l' :: 's' :: 'e' :: rest => some (.bool false, rest)
  | '"' :: rest => string? rest
  | cs => number? cs

theorem consSymbol_eq_some {s : Symbol} {r : Option (List Symbol × List Char)}
    {symbols : List Symbol} {rest : List Char} (h : consSymbol s r = some (symbols, rest)) :
    ∃ tail, r = some (tail, rest) := by
  rcases r with _ | ⟨tail, t⟩
  · exact absurd h (by simp [consSymbol])
  · simp only [consSymbol, Option.some.injEq, Prod.mk.injEq] at h
    exact ⟨tail, by rw [h.2]⟩

/-- What follows a string is shorter than the string with it. -/
theorem symbols?_length (cs : List Char) :
    ∀ symbols rest, symbols? cs = some (symbols, rest) → rest.length < cs.length := by
  fun_induction symbols? cs with
  | case1 rest =>
      intro symbols rest' h
      simp only [Option.some.injEq, Prod.mk.injEq] at h
      rw [← h.2, List.length_cons]
      omega
  | case3 a b c d rest n _ ih | case5 c rest _ c' _ ih =>
      intro symbols rest' h
      rcases consSymbol_eq_some h with ⟨tail, ht⟩
      have := ih tail rest' ht
      simp only [List.length_cons]
      omega
  | case7 c rest _ _ _ _ ih =>
      intro symbols rest' h
      rcases consSymbol_eq_some h with ⟨tail, ht⟩
      have := ih tail rest' ht
      simp only [List.length_cons]
      omega
  | _ => intro symbols rest' h; exact absurd h (by simp)

theorem string?_length {cs rest : List Char} {t : Token} (h : string? cs = some (t, rest)) :
    rest.length < cs.length := by
  simp only [string?, Option.map_eq_some_iff] at h
  rcases h with ⟨⟨symbols, tail⟩, hs, hp⟩
  simp only [Prod.mk.injEq] at hp
  rw [← hp.2]
  exact symbols?_length _ _ _ hs

theorem number?_length {cs rest : List Char} {t : Token} (h : number? cs = some (t, rest)) :
    rest.length < cs.length := by
  simp only [number?, Option.map_eq_some_iff] at h
  rcases h with ⟨⟨numeral, tail⟩, hn, hp⟩
  simp only [Prod.mk.injEq] at hp
  rw [← hp.2]
  exact Numeral.next?_length hn

/-- A token takes at least one character. -/
theorem next?_length {cs rest : List Char} {t : Token} (h : next? cs = some (t, rest)) :
    rest.length < cs.length := by
  unfold next? at h
  split at h
  case h_10 =>
    have := string?_length h
    rw [List.length_cons]
    omega
  case h_11 => exact number?_length h
  all_goals
    simp only [Option.some.injEq, Prod.mk.injEq] at h
    rw [← h.2]
    simp only [List.length_cons]
    omega

/-- All tokens of a text, or nothing if some part of it is no token. -/
def ofChars? (cs : List Char) : Option (List Token) :=
  match cs with
  | [] => some []
  | c :: rest =>
    if isSpace c then ofChars? rest
    else
      match h : next? (c :: rest) with
      | none => none
      | some (token, tail) =>
        have := next?_length h
        (ofChars? tail).map (token :: ·)
termination_by cs.length
decreasing_by
  · exact Nat.lt_succ_self _
  · assumption

end Token

end SolidModel
