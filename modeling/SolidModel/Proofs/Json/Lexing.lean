import SolidModel.Proofs.Json.Reading

/-!
# Cutting a Written Value into Tokens

The text of a value consists of the tokens of what is read for it.

Where a token ends has to show from the text. Punctuation and words say so themselves, and a string
has its closing quote, which is never taken for one of its characters because those are escaped.
Only a number goes on as long as it can. So what is claimed of a value is claimed before a text that
does not continue a number; within a value such a text follows everywhere, since every item ends at
white space, a comma or a bracket.

White space is the only thing in which the written forms differ. `Json.Spacing.Blank` is all that is
asked of a form, and both forms have it.

## Main definitions

* `Json.Spacing.Blank`: A form has nothing but white space between things, and the colon.

## Theorems

* `Token.ofChars?_quote`: A quoted string is read as itself.
* `Token.ofChars?_numeral`: A numeral is a token if the text behind it does not go on with it.
* `Json.ofChars?_write`: The text of a value is cut into the tokens of its echo.
* `Json.skim?_write`: What is read of a value that was written.
* `Json.parse?_eq_some_iff`: When such a value is parsed.
-/

namespace SolidModel

namespace Token

/-! ## Strings -/

theorem hexValue?_hexDigit (n : Fin 16) : hexValue? (Json.hexDigit n) = some n.val := by
  revert n
  decide

theorem ofNumber_toNat {c : Char} (h : c.toNat < 32) : Symbol.ofNumber c.toNat = .char c := by
  have hhalf : (isHighHalf c.toNat || isLowHalf c.toNat) = false := by
    rw [isHighHalf, isLowHalf, ← Bool.decide_or]
    exact decide_eq_false (by omega)
  rw [Symbol.ofNumber, hhalf, if_neg Bool.false_ne_true, Char.ofNat_toNat]

/-- A character that needs no escape stands for itself. -/
theorem symbols?_plain {c : Char} (hquote : c ≠ '"') (hbackslash : c ≠ '\\')
    (hc : ¬c.toNat < 32) (cs : List Char) :
    symbols? (c :: cs) = consSymbol (.char c) (symbols? cs) := by
  rw [symbols?.eq_def]
  split
  · next heq => exact absurd (List.cons.inj heq).1 hquote
  · next heq => exact absurd (List.cons.inj heq).1 hbackslash
  · next heq => exact absurd (List.cons.inj heq).1 hbackslash
  · next heq =>
      rw [← (List.cons.inj heq).1, ← (List.cons.inj heq).2]
      exact if_neg fun h => h.elim hbackslash hc
  · next heq => exact absurd heq (List.cons_ne_nil _ _)

/-- An escaped character is read as the character. -/
theorem symbols?_escape (c : Char) (cs : List Char) :
    symbols? (Json.escape c ++ cs) = consSymbol (.char c) (symbols? cs) := by
  unfold Json.escape
  -- The seven characters with an escape of their own.
  iterate 7
    split
    · next h => subst h; rfl
  split
  · next hcontrol =>
      have hhigh := hexValue?_hexDigit ⟨c.toNat / 16, by omega⟩
      have hlow := hexValue?_hexDigit ⟨c.toNat % 16, by omega⟩
      have hhex : hex? '0' '0' (Json.hexDigit (c.toNat / 16)) (Json.hexDigit (c.toNat % 16)) =
          some c.toNat := by
        rw [hex?, hhigh, hlow]
        refine congrArg some ?_
        simp only
        omega
      rw [← ofNumber_toNat hcontrol, List.cons_append, List.cons_append, List.cons_append,
        List.cons_append, List.cons_append, List.cons_append, List.nil_append, symbols?, hhex]
  · next hquote hbackslash _ _ _ _ _ hcontrol =>
      exact symbols?_plain hquote hbackslash hcontrol cs

theorem symbols?_flatMap_escape (cs rest : List Char) :
    symbols? (cs.flatMap Json.escape ++ '"' :: rest) = some (cs.map .char, rest) := by
  induction cs with
  | nil => rfl
  | cons c cs ih =>
      rw [List.flatMap_cons, List.append_assoc, symbols?_escape, ih]
      rfl

theorem joined?_map_char (cs : List Char) : joined? (cs.map .char) = some cs := by
  induction cs with
  | nil => rfl
  | cons c cs ih => rw [List.map_cons, joined?, ih, Option.map_some]

/-! ## Texts -/

theorem ofChars?_nil : ofChars? [] = some [] := by rw [ofChars?]

theorem ofChars?_space {c : Char} (h : isSpace c = true) (cs : List Char) :
    ofChars? (c :: cs) = ofChars? cs := by
  rw [ofChars?, if_pos h]

theorem ofChars?_spaces {blank : List Char} (h : ∀ c ∈ blank, isSpace c = true)
    (cs : List Char) : ofChars? (blank ++ cs) = ofChars? cs := by
  induction blank with
  | nil => rfl
  | cons c blank ih =>
      rw [List.forall_mem_cons] at h
      rw [List.cons_append, ofChars?_space h.1, ih h.2]

/-- A token is cut off if the text does not begin with white space. -/
theorem ofChars?_token {c : Char} {cs rest : List Char} {token : Token} {ts : List Token}
    (hspace : isSpace c = false) (hnext : next? (c :: cs) = some (token, rest))
    (hrest : ofChars? rest = some ts) : ofChars? (c :: cs) = some (token :: ts) := by
  rw [ofChars?, if_neg (by rw [hspace]; exact Bool.false_ne_true)]
  split
  · next h => exact absurd (h.symm.trans hnext) (by simp)
  · next token' rest' h =>
      have heq := h.symm.trans hnext
      rw [Option.some.injEq, Prod.mk.injEq] at heq
      rcases heq with ⟨rfl, rfl⟩
      rw [hrest]
      rfl

/-- A quoted string is read as itself. What has to be escaped in it is escaped, and nothing else is,
    so that the quote behind it is the first one that is not. -/
theorem ofChars?_quote (s : String) {rest : List Char} {ts : List Token}
    (hrest : ofChars? rest = some ts) :
    ofChars? ((Json.quote s).toList ++ rest) = some (.string (some s) :: ts) := by
  rw [Json.quote, String.toList_ofList, List.cons_append, List.append_assoc]
  refine ofChars?_token rfl ?_ hrest
  rw [next?, string?, List.singleton_append, symbols?_flatMap_escape, Option.map_some]
  simp only [joined?_map_char, Option.map_some, String.ofList_toList]

/-- A text that begins as numbers do begins with a number. -/
theorem next?_eq_number? {c : Char} (h : c.isDigit = true ∨ c = '-') (cs : List Char) :
    next? (c :: cs) = number? (c :: cs) := by
  rw [next?.eq_def]
  split
  case h_11 => rfl
  all_goals
    next heq =>
      rw [(List.cons.inj heq).1] at h
      exact absurd h (by decide)

theorem isSpace_eq_false {c : Char} (h : c.isDigit = true ∨ c = '-') : isSpace c = false := by
  rw [Bool.eq_false_iff]
  intro hspace
  simp only [isSpace, Bool.or_eq_true, beq_iff_eq] at hspace
  rcases hspace with ((rfl | rfl) | rfl) | rfl <;> exact absurd h (by decide)

/-- A numeral is a token if the text behind it does not go on with it. The longest numeral is taken,
    so that what stands behind has to be asked about. -/
theorem ofChars?_numeral {cs rest : List Char} {numeral : Numeral} {ts : List Token}
    (h : Numeral.Written cs numeral) (hends : Numeral.Ends rest)
    (hrest : ofChars? rest = some ts) :
    ofChars? (cs ++ rest) = some (ofNumeral numeral :: ts) := by
  have hnext := h rest hends
  rcases h.head with ⟨c, tail, rfl, hhead⟩
  rw [List.cons_append] at hnext ⊢
  refine ofChars?_token (isSpace_eq_false hhead) ?_ hrest
  rw [next?_eq_number? hhead, number?, hnext, Option.map_some]

/-- The token of a numeral is the token of what is read of it. -/
theorem tokens_ofNumeral (numeral : Numeral) :
    (Json.ofNumeral numeral).tokens = [ofNumeral numeral] := by
  rw [Json.ofNumeral, ofNumeral]
  cases numeral.natural? with
  | some n => rfl
  | none => cases numeral.scaled? <;> rfl

theorem ofChars?_numberText {text : String}
    (htext : (∃ numeral, Numeral.Written text.toList numeral) ∨ text = "null")
    {rest : List Char} {ts : List Token} (hends : Numeral.Ends rest)
    (hrest : ofChars? rest = some ts) :
    ofChars? (text.toList ++ rest) = some ((Json.ofNumberText text).tokens ++ ts) := by
  rcases htext with ⟨numeral, hwritten⟩ | rfl
  · rw [Json.ofNumberText, hwritten.ofText?_eq, Option.map_some, Option.getD_some,
      tokens_ofNumeral]
    exact ofChars?_numeral hwritten hends hrest
  · rw [Json.ofNumberText, Json.ofText?_null]
    exact ofChars?_token rfl rfl hrest

end Token

namespace Json

/-! ## Values -/

/-- A form has nothing but white space between things, and the colon. -/
structure Spacing.Blank (spacing : Spacing) : Prop where
  /-- What stands before an item is white space, at every depth. -/
  line : ∀ depth, ∀ c ∈ (spacing.line depth).toList, Token.isSpace c = true
  /-- What stands between a key and its value is a colon with white space behind it. -/
  colon : ∃ blank, spacing.colon.toList = ':' :: blank ∧ ∀ c ∈ blank, Token.isSpace c = true

theorem blank_prettySpacing : prettySpacing.Blank where
  line depth := by
    rw [prettySpacing, String.toList_ofList, List.forall_mem_cons]
    refine ⟨rfl, fun c hc => ?_⟩
    rw [List.eq_of_mem_replicate hc]
    rfl
  colon := ⟨[' '], rfl, List.forall_mem_singleton.mpr rfl⟩

theorem blank_compactSpacing : compactSpacing.Blank where
  line _ := List.all_eq_true.mp rfl
  colon := ⟨[], rfl, List.forall_mem_nil _⟩

theorem ends_space {c : Char} (h : Token.isSpace c = true) (cs : List Char) :
    Numeral.Ends (c :: cs) := by
  simp only [Token.isSpace, Bool.or_eq_true, beq_iff_eq] at h
  rcases h with ((rfl | rfl) | rfl) | rfl <;>
    exact Numeral.ends_cons rfl (by decide) (by decide) cs

theorem ends_spaces {blank cs : List Char} (h : ∀ c ∈ blank, Token.isSpace c = true)
    (hcs : Numeral.Ends cs) : Numeral.Ends (blank ++ cs) := by
  cases blank with
  | nil => exact hcs
  | cons c blank => exact ends_space (h c List.mem_cons_self) _

theorem toList_parts (mark line first others : String) (rest : List Char) :
    (mark ++ line ++ first ++ others).toList ++ rest =
      mark.toList ++ (line.toList ++ (first.toList ++ (others.toList ++ rest))) := by
  simp only [String.toList_append, List.append_assoc]

section Write

variable {spacing : Spacing} (h : spacing.Blank)

include h

theorem ends_writeItems (items : List Json) (depth : Nat) (rest : List Char) :
    Numeral.Ends ((writeItems spacing depth items).toList ++ rest) := by
  cases items with
  | nil =>
      rw [writeItems, String.toList_append, List.append_assoc]
      exact ends_spaces (h.line depth) (Numeral.ends_cons rfl (by decide) (by decide) _)
  | cons item items =>
      rw [writeItems, String.append_assoc, String.append_assoc, String.toList_append]
      exact Numeral.ends_cons rfl (by decide) (by decide) _

theorem ends_writeFields (fields : List (String × Json)) (depth : Nat) (rest : List Char) :
    Numeral.Ends ((writeFields spacing depth fields).toList ++ rest) := by
  cases fields with
  | nil =>
      rw [writeFields, String.toList_append, List.append_assoc]
      exact ends_spaces (h.line depth) (Numeral.ends_cons rfl (by decide) (by decide) _)
  | cons field fields =>
      rw [writeFields, String.append_assoc, String.append_assoc, String.toList_append]
      exact Numeral.ends_cons rfl (by decide) (by decide) _

mutual

/-- The text of a value is cut into the tokens of its echo. The echo is the value as a reader sees
    it, with the numbers that its texts stand for and null for those that have none. By induction on
    the value, with the text behind it carried along. -/
theorem ofChars?_write (value : Json) (depth : Nat) {rest : List Char} {ts : List Token}
    (hends : Numeral.Ends rest) (hrest : Token.ofChars? rest = some ts) :
    Token.ofChars? ((write spacing depth value).toList ++ rest) =
      some (value.echo.tokens ++ ts) := by
  cases value with
  | null | unreadable => rw [write]; exact Token.ofChars?_token rfl rfl hrest
  | bool b => cases b <;> rw [write] <;> exact Token.ofChars?_token rfl rfl hrest
  | natural n => exact Token.ofChars?_numberText (Or.inl ⟨_, Numeral.written_repr n⟩) hends hrest
  | number x =>
      refine Token.ofChars?_numberText ?_ hends hrest
      exact (numberText_cases x).imp (fun ⟨numeral, hwritten, _⟩ => ⟨numeral, hwritten⟩) id
  | string s => exact Token.ofChars?_quote s hrest
  | array items =>
      cases items with
      | nil =>
          rw [write]
          exact Token.ofChars?_token rfl rfl (Token.ofChars?_token rfl rfl hrest)
      | cons item items =>
          -- The text is taken apart from its end: what follows a token is known before the token.
          have hitem := ofChars?_write item (depth + 1) (ends_writeItems h items depth rest)
            (ofChars?_writeItems items depth hrest)
          rw [← Token.ofChars?_spaces (h.line (depth + 1))] at hitem
          rw [write, toList_parts, echo, echoItems, tokens, List.cons_append, List.append_assoc]
          exact Token.ofChars?_token rfl rfl hitem
  | object fields =>
      cases fields with
      | nil =>
          rw [write]
          exact Token.ofChars?_token rfl rfl (Token.ofChars?_token rfl rfl hrest)
      | cons field fields =>
          have hfield := ofChars?_writeField field (depth + 1)
            (ends_writeFields h fields depth rest) (ofChars?_writeFields fields depth hrest)
          rw [← Token.ofChars?_spaces (h.line (depth + 1))] at hfield
          rw [write, toList_parts, echo, echoFields, tokens, List.cons_append, List.append_assoc]
          exact Token.ofChars?_token rfl rfl hfield

theorem ofChars?_writeItems (items : List Json) (depth : Nat) {rest : List Char}
    {ts : List Token} (hrest : Token.ofChars? rest = some ts) :
    Token.ofChars? ((writeItems spacing depth items).toList ++ rest) =
      some (itemTokens (echoItems items) ++ ts) := by
  cases items with
  | nil =>
      have hend : Token.ofChars? (']' :: rest) = some (.closeArray :: ts) :=
        Token.ofChars?_token rfl rfl hrest
      rw [writeItems, String.toList_append, List.append_assoc, Token.ofChars?_spaces (h.line depth)]
      exact hend
  | cons item items =>
      have hitem := ofChars?_write item (depth + 1) (ends_writeItems h items depth rest)
        (ofChars?_writeItems items depth hrest)
      rw [← Token.ofChars?_spaces (h.line (depth + 1))] at hitem
      rw [writeItems, toList_parts, echoItems, itemTokens, List.cons_append, List.append_assoc]
      exact Token.ofChars?_token rfl rfl hitem

theorem ofChars?_writeField (field : String × Json) (depth : Nat) {rest : List Char}
    {ts : List Token} (hends : Numeral.Ends rest) (hrest : Token.ofChars? rest = some ts) :
    Token.ofChars? ((writeField spacing depth field).toList ++ rest) =
      some (fieldTokens (field.1, field.2.echo) ++ ts) := by
  rcases field with ⟨key, value⟩
  rcases h.colon with ⟨blank, hcolon, hblank⟩
  have hvalue := ofChars?_write value depth hends hrest
  rw [← Token.ofChars?_spaces hblank] at hvalue
  rw [writeField, fieldTokens, String.append_assoc, String.toList_append, String.toList_append,
    List.append_assoc, List.append_assoc, hcolon]
  exact Token.ofChars?_quote key (Token.ofChars?_token rfl rfl hvalue)

theorem ofChars?_writeFields (fields : List (String × Json)) (depth : Nat) {rest : List Char}
    {ts : List Token} (hrest : Token.ofChars? rest = some ts) :
    Token.ofChars? ((writeFields spacing depth fields).toList ++ rest) =
      some (fieldsTokens (echoFields fields) ++ ts) := by
  cases fields with
  | nil =>
      have hend : Token.ofChars? ('}' :: rest) = some (.closeObject :: ts) :=
        Token.ofChars?_token rfl rfl hrest
      rw [writeFields, String.toList_append, List.append_assoc,
        Token.ofChars?_spaces (h.line depth)]
      exact hend
  | cons field fields =>
      have hfield := ofChars?_writeField field (depth + 1) (ends_writeFields h fields depth rest)
        (ofChars?_writeFields fields depth hrest)
      rw [← Token.ofChars?_spaces (h.line (depth + 1))] at hfield
      rw [writeFields, toList_parts, echoFields, fieldsTokens, List.cons_append,
        List.append_assoc]
      exact Token.ofChars?_token rfl rfl hfield

end

/-- What is read of a value that was written, in any form that is blank between things. It is the
    echo of the value, cut where it is nested too deep. -/
theorem skim?_write (value : Json) (depth : Nat) :
    skim? (write spacing depth value) = some (value.echo.cut 0) := by
  have htokens := ofChars?_write h value depth Numeral.ends_nil Token.ofChars?_nil
  rw [List.append_nil, List.append_nil] at htokens
  rw [skim?, htokens, Option.bind_some, ofTokens?_tokens]

end Write

/-- What is read of a value that was written with a line for every item. -/
theorem skim?_pretty (value : Json) : skim? value.pretty = some (value.echo.cut 0) :=
  skim?_write blank_prettySpacing value 0

/-- The form without white space says the same. -/
theorem skim?_compact (value : Json) : skim? value.compact = some (value.echo.cut 0) :=
  skim?_write blank_compactSpacing value 0

/-- A value that was written is parsed if it is not too deep and all of it can be read. Where the
    text came from does not matter once it is known what it is skimmed as, so that this holds of
    every form. -/
theorem parse?_eq_some_iff {text : String} {value other : Json}
    (h : skim? text = some (value.echo.cut 0)) :
    parse? text = some other ↔
      value.depth ≤ maxDepth ∧ value.echo.isReadable = true ∧ value.echo = other := by
  have hdepth := depth_echo value
  rw [parse?, h, Option.filter_eq_some_iff, Option.some.injEq]
  constructor
  · rintro ⟨rfl, hreadable⟩
    -- Only what is not too deep is still readable when it was cut.
    have hle := depth_le_of_isReadable_cut _ (Nat.zero_le _) hreadable
    rw [cut_eq_self _ hle] at hreadable ⊢
    exact ⟨by omega, hreadable, rfl⟩
  · rintro ⟨hle, hreadable, rfl⟩
    rw [cut_eq_self _ (by omega)]
    exact ⟨rfl, hreadable⟩

end Json

end SolidModel
