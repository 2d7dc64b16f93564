import SolidModel.Proofs.Decimal.Scaled
import SolidModel.Proofs.Json.Reading
import SolidModel.Proofs.Success

/-!
# What a Reader Lets Through

What is known of every value that was read, whatever the text was.

Two things are. No number is infinite or no number at all, because a numeral is never read as one.
And nothing is nested deeper than the limit, because a list or an object that is inside too many
others is not kept. How deep a value may still be depends on how many lists and objects are open
around it; `Json.Fits` says both things of a value with that many levels left.

The reader goes by single tokens, so it is an invariant of its states. What a state holds are the
values that were delivered into lists and objects which are still open. Each of them fits into the
levels that are left inside its list or object, and closing that one takes up a level.

## Main definitions

* `Json.IsFinite`: Every number of a value is finite.
* `Json.Fits`: A value has finite numbers and no more than some levels.
* `Json.Reading.Fits`: Everything that a state of the reader holds fits where it is.

## Theorems

* `Json.Reading.fits_step`, `Json.Reading.fits_run`: The invariant of the reader.
* `Json.fits_of_skim?`: Every value that was read fits into the limit.
-/

namespace SolidModel

namespace Json

/-! ## Values that fit -/

mutual

/-- Every number of a value is finite. -/
def IsFinite : Json → Prop
  | .number x => x.isFinite = true
  | .array items => AreFinite items
  | .object fields => FieldsFinite fields
  | _ => True

/-- Every number of every item is finite. -/
def AreFinite : List Json → Prop
  | [] => True
  | item :: rest => IsFinite item ∧ AreFinite rest

/-- Every number of every field is finite. -/
def FieldsFinite : List (String × Json) → Prop
  | [] => True
  | (_, value) :: rest => IsFinite value ∧ FieldsFinite rest

end

theorem areFinite_iff {items : List Json} : AreFinite items ↔ ∀ item ∈ items, item.IsFinite := by
  induction items with
  | nil => exact iff_of_true trivial (List.forall_mem_nil _)
  | cons item rest ih => rw [AreFinite, ih, List.forall_mem_cons]

theorem fieldsFinite_iff {fields : List (String × Json)} :
    FieldsFinite fields ↔ ∀ value ∈ fields.map Prod.snd, value.IsFinite := by
  induction fields with
  | nil => exact iff_of_true trivial (List.forall_mem_nil _)
  | cons field rest ih => rw [FieldsFinite, ih, List.map_cons, List.forall_mem_cons]

/-- A value has finite numbers and no more than some levels. -/
structure Fits (levels : Nat) (value : Json) : Prop where
  /-- It is nested no deeper than there are levels. -/
  depth_le : value.depth ≤ levels
  /-- Each of its numbers is finite. -/
  isFinite : value.IsFinite

theorem fits_array_iff {items : List Json} {levels : Nat} :
    Fits (levels + 1) (.array items) ↔ ∀ item ∈ items, item.Fits levels := by
  constructor
  · exact fun h item hitem => ⟨depth_array_le_iff.mp h.depth_le item hitem,
      areFinite_iff.mp h.isFinite item hitem⟩
  · exact fun h => ⟨depth_array_le_iff.mpr fun item hitem => (h item hitem).depth_le,
      areFinite_iff.mpr fun item hitem => (h item hitem).isFinite⟩

theorem fits_object_iff {fields : List (String × Json)} {levels : Nat} :
    Fits (levels + 1) (.object fields) ↔ ∀ value ∈ fields.map Prod.snd, value.Fits levels := by
  constructor
  · exact fun h value hvalue => ⟨depth_object_le_iff.mp h.depth_le value hvalue,
      fieldsFinite_iff.mp h.isFinite value hvalue⟩
  · exact fun h => ⟨depth_object_le_iff.mpr fun value hvalue => (h value hvalue).depth_le,
      fieldsFinite_iff.mpr fun value hvalue => (h value hvalue).isFinite⟩

theorem fits_unreadable (levels : Nat) : Fits levels .unreadable := ⟨Nat.zero_le _, trivial⟩

/-! ## States that fit -/

namespace Reading

/-- The items of an open list fit into it. -/
def ItemsFit (stack : List Frame) (items : List Json) : Prop :=
  ∀ item ∈ items, item.Fits (maxDepth - (stack.length + 1))

/-- The values in an open object fit into it. -/
def FieldsFit (stack : List Frame) (fields : List (Option String × Json)) : Prop :=
  ∀ field ∈ fields, field.2.Fits (maxDepth - (stack.length + 1))

/-- Everything in the open lists and objects fits into them. -/
def StackFits : List Frame → Prop
  | [] => True
  | .item before :: stack => ItemsFit stack before ∧ StackFits stack
  | .field before _ :: stack => FieldsFit stack before ∧ StackFits stack

/-- Everything that a state of the reader holds fits where it is. -/
def Fits : Reading → Prop
  | .value stack => StackFits stack
  | .firstItem stack => StackFits stack
  | .firstField stack => StackFits stack
  | .nextField before stack => FieldsFit stack before ∧ StackFits stack
  | .colon before _ stack => FieldsFit stack before ∧ StackFits stack
  | .afterItem items stack => ItemsFit stack items ∧ StackFits stack
  | .afterField fields stack => FieldsFit stack fields ∧ StackFits stack
  | .done v => v.Fits maxDepth

end Reading

end Json

/-- A token says no number that is not finite. -/
def Token.IsFinite : Token → Prop
  | .number (some x) => x.isFinite = true
  | _ => True

namespace Json.Reading

theorem fits_deliver {value : Json} {stack : List Frame}
    (hvalue : value.Fits (maxDepth - stack.length)) (hstack : StackFits stack) :
    (deliver value stack).Fits := by
  rcases stack with _ | ⟨before | ⟨before, key⟩, stack⟩
  · exact hvalue
  · exact ⟨List.forall_mem_cons.mpr ⟨hvalue, hstack.1⟩, hstack.2⟩
  · exact ⟨List.forall_mem_cons.mpr ⟨hvalue, hstack.1⟩, hstack.2⟩

/-- What is closed fits if what is in it did, since it is not kept where no level is left. -/
theorem fits_close {value : Json} {stack : List Frame}
    (hvalue : value.Fits (maxDepth - (stack.length + 1) + 1)) (hstack : StackFits stack) :
    (close value stack).Fits := by
  rw [close_eq]
  refine fits_deliver ?_ hstack
  split
  · next hlt =>
      have hlevels : maxDepth - (stack.length + 1) + 1 = maxDepth - stack.length := by omega
      exact hlevels ▸ hvalue
  · exact fits_unreadable _

theorem fits_begin {stack : List Frame} {token : Token} {next : Reading}
    (hstack : StackFits stack) (htoken : token.IsFinite) (h : begin stack token = some next) :
    next.Fits := by
  cases token with
  | openArray | openObject => exact Option.some.inj h ▸ hstack
  | null | bool | natural =>
      exact Option.some.inj h ▸ fits_deliver ⟨Nat.zero_le _, trivial⟩ hstack
  | number x =>
      refine Option.some.inj h ▸ fits_deliver ?_ hstack
      cases x with
      | none => exact fits_unreadable _
      | some x => exact ⟨Nat.zero_le _, htoken⟩
  | string s =>
      refine Option.some.inj h ▸ fits_deliver ?_ hstack
      cases s <;> exact ⟨Nat.zero_le _, trivial⟩
  | _ => exact absurd h (by simp [begin])

/-- An object that is closed holds what was delivered into it, unless a key is unreadable. -/
theorem fits_ofFields {stack : List Frame} {fields : List (Option String × Json)}
    (h : FieldsFit stack fields) :
    (ofFields fields.reverse).Fits (maxDepth - (stack.length + 1) + 1) := by
  rw [ofFields]
  split
  · next fields' hfields =>
      rw [fits_object_iff, List.forall_mem_map]
      refine Option.forall_mem_of_mapM hfields ?_
      rintro ⟨_ | key, v⟩ hfield field' hread
      · exact absurd hread (by simp)
      · exact Option.some.inj hread ▸ h _ (List.mem_reverse.mp hfield)
  · exact fits_unreadable _

-- A state either waits for a value, which any token may begin, or names the tokens it accepts. Only
-- the end of a list or an object makes a new value of old ones, and gives up a level for it.
/-- A token leads from a state that fits to one that fits. A state fits if what has been put
    together so far does, together with the levels that are still open around it. -/
theorem fits_step {reading next : Reading} {token : Token} (hreading : reading.Fits)
    (htoken : token.IsFinite) (h : reading.step token = some next) : next.Fits := by
  -- A case for every place in the text. Only where a value ends is there something new to be shown.
  cases reading with
  | value stack => exact fits_begin hreading htoken h
  | firstItem stack =>
      by_cases hclose : token = .closeArray
      · subst hclose
        exact Option.some.inj h ▸
          fits_close (fits_array_iff.mpr (List.forall_mem_nil _)) hreading
      · -- Any other token begins an item, of a list that holds nothing yet.
        have hstep : (firstItem stack).step token = begin (.item [] :: stack) token := by
          cases token <;> first | rfl | exact absurd rfl hclose
        have hopen : StackFits (.item [] :: stack) := ⟨List.forall_mem_nil _, hreading⟩
        exact fits_begin hopen htoken (hstep ▸ h)
  | firstField stack =>
      cases token with
      | closeObject =>
          exact Option.some.inj h ▸
            fits_close (fits_object_iff.mpr (List.forall_mem_nil _)) hreading
      | string key => exact Option.some.inj h ▸ ⟨List.forall_mem_nil _, hreading⟩
      | _ => exact nomatch h
  | nextField before stack =>
      cases token with
      | string key => exact Option.some.inj h ▸ hreading
      | _ => exact nomatch h
  | colon before key stack =>
      cases token with
      | colon => exact Option.some.inj h ▸ hreading
      | _ => exact nomatch h
  | afterItem items stack =>
      cases token with
      | comma => exact Option.some.inj h ▸ hreading
      | closeArray =>
          refine Option.some.inj h ▸ fits_close (fits_array_iff.mpr ?_) hreading.2
          exact fun item hitem => hreading.1 item (List.mem_reverse.mp hitem)
      | _ => exact nomatch h
  | afterField fields stack =>
      cases token with
      | comma => exact Option.some.inj h ▸ hreading
      | closeObject => exact Option.some.inj h ▸ fits_close (fits_ofFields hreading.1) hreading.2
      | _ => exact nomatch h
  | done v => exact nomatch h

/-- Tokens lead from a state that fits to one that fits. -/
theorem fits_run {reading next : Reading} {tokens : List Token} (hreading : reading.Fits)
    (htokens : ∀ token ∈ tokens, token.IsFinite) (h : reading.run tokens = some next) :
    next.Fits := by
  -- The invariant speaks of one state only, so that the state is free in the induction.
  induction tokens generalizing reading with
  | nil => exact Option.some.inj h ▸ hreading
  | cons token rest ih =>
      rw [run, Option.bind_eq_some_iff] at h
      rcases h with ⟨between, hstep, hrest⟩
      rw [List.forall_mem_cons] at htokens
      exact ih (fits_step hreading htokens.1 hstep) htokens.2 hrest

end Json.Reading

/-! ## Texts -/

namespace Token

theorem isFinite_ofNumeral (numeral : Numeral) : (ofNumeral numeral).IsFinite := by
  unfold ofNumeral
  split
  · trivial
  · cases h : numeral.scaled? with
    | none => trivial
    | some x => exact Numeral.isFinite_of_scaled? h

theorem isFinite_of_next? {cs rest : List Char} {token : Token}
    (h : next? cs = some (token, rest)) : token.IsFinite := by
  unfold next? at h
  split at h
  case h_10 =>
    rw [string?, Option.map_eq_some_iff] at h
    rcases h with ⟨⟨symbols, tail⟩, _, heq⟩
    exact (Prod.mk.inj heq).1 ▸ trivial
  case h_11 =>
    rw [number?, Option.map_eq_some_iff] at h
    rcases h with ⟨⟨numeral, tail⟩, _, heq⟩
    exact (Prod.mk.inj heq).1 ▸ isFinite_ofNumeral numeral
  all_goals exact (Prod.mk.inj (Option.some.inj h)).1 ▸ trivial

/-- No token of a text says a number that is not finite. -/
theorem isFinite_of_ofChars? (cs : List Char) :
    ∀ tokens, ofChars? cs = some tokens → ∀ token ∈ tokens, token.IsFinite := by
  fun_induction ofChars? cs with
  | case1 =>
      intro tokens h
      exact Option.some.inj h ▸ List.forall_mem_nil _
  | case2 c rest hspace ih => exact ih
  | case3 c rest hspace hnext => exact fun tokens h => nomatch h
  | case4 c rest hspace token tail hnext hlength ih =>
      intro tokens h
      rw [Option.map_eq_some_iff] at h
      rcases h with ⟨tokens', htail, rfl⟩
      exact List.forall_mem_cons.mpr ⟨isFinite_of_next? hnext, ih tokens' htail⟩

end Token

namespace Json

/-- Every value that was read fits into the limit, with finite numbers. A number that would be
    infinite is refused as a token, and a level too many when it is opened. -/
theorem fits_of_skim? {text : String} {value : Json} (h : skim? text = some value) :
    value.Fits maxDepth := by
  rw [skim?, Option.bind_eq_some_iff] at h
  rcases h with ⟨tokens, htokens, hread⟩
  unfold ofTokens? at hread
  split at hread
  · next v hrun =>
      have hstart : Reading.Fits (.value []) := trivial
      exact Option.some.inj hread ▸
        Reading.fits_run hstart (Token.isFinite_of_ofChars? _ tokens htokens) hrun
  · exact absurd hread (by simp)

/-- A number that is read off a value with finite numbers is finite. -/
theorem isFinite_of_float? {value : Json} {x : Float} (hvalue : value.IsFinite)
    (h : value.float? = some x) : x.isFinite = true := by
  cases value with
  | natural n => exact Decimal.isFinite_of_toFloat? h
  | number y => exact Option.some.inj h ▸ hvalue
  | _ => exact nomatch h

end Json

end SolidModel
