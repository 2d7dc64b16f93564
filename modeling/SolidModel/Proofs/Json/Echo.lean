import SolidModel.Json.Decode
import SolidModel.Json.Reader
import SolidModel.Json.Writer
import SolidModel.Proofs.Decimal.Layout
import SolidModel.Proofs.Float.Class

/-!
# What a Reader Makes of a Value

The value that is read where a value was written, said without text.

Two things happen to a value on its way through a text. The first is to its numbers. A number is
written with digits that stand for it and for no other, but reading is quick rather than exact, and
may end at a neighbour. `Json.readBack?` is the float that is read for a float, and `Json.echo` does
to a whole value what happens to its numbers. Nothing but the numbers is changed, except for what
has no form in JSON and becomes null.

The second is to lists and objects that are too deep inside others, of which a reader keeps only
that they were there. `Json.cut` does that. A value that is not too deep comes out as it went in,
and any other shows that it was too deep.

## Main definitions

* `Json.ofNumberText`: What is read of the text of a number.
* `Json.readBack?`: The float that is read for a float, if it is read as one.
* `Json.echo`: The value with its numbers as they are read.
* `Json.depth`: How deep lists and objects are nested.
* `Json.cut`: The value with what is too deep made unreadable.

## Theorems

* `Json.isFinite_of_readBack?`: Only what is finite is read back.
* `Json.echo_number_eq_null_iff`: Only what is not finite becomes null.
* `Json.float?_echo_number`: A number is read as the float it is read back as.
* `Json.depth_echo`: Reading numbers does not change the depth.
* `Json.cut_eq_self`: What is not too deep is not cut.
* `Json.depth_le_of_isReadable_cut`: Nothing that is too deep is readable when it was cut.
-/

namespace SolidModel

namespace Json

/-! ## Numbers -/

/-- What is read of a numeral: a count, or a float, unless it is too large. -/
def ofNumeral (numeral : Numeral) : Json :=
  match numeral.natural? with
  | some n => .natural n
  | none => (numeral.scaled?.map .number).getD .unreadable

/-- What is read of the text of a number, which may be no numeral but null. -/
def ofNumberText (text : String) : Json := ((Numeral.ofText? text).map ofNumeral).getD .null

/-- The float that is read for a float, from the text that it is written as. There is none if that
    is no numeral, or one that a reader refuses. -/
def readBack? (x : Float) : Option Float := (Numeral.ofText? (numberText x)).bind Numeral.scaled?

/-- A finite float is written as a numeral, and any other as null. -/
theorem numberText_cases (x : Float) :
    (∃ numeral, Numeral.Written (numberText x).toList numeral ∧ numeral.natural? = none) ∨
      numberText x = "null" := by
  unfold numberText
  split
  · next h => exact Or.inl (Layout.writesNumber_json h)
  · exact Or.inr rfl

theorem ofText?_null : Numeral.ofText? "null" = none := by decide

/-- Only what is finite is read back. -/
theorem classify_of_readBack? {x y : Float} (h : readBack? x = some y) :
    ∃ negative word, classify x = .finite negative word := by
  rw [readBack?, numberText] at h
  split at h
  · next negative word hclass => exact ⟨negative, word, hclass⟩
  · rw [ofText?_null] at h
    exact absurd h (by simp)

/-- Only what is finite is read back. -/
theorem isFinite_of_readBack? {x y : Float} (h : readBack? x = some y) : x.isFinite = true :=
  (classify_eq_finite_iff x).mp (classify_of_readBack? h)

mutual

/-- The value with its numbers as they are read. -/
def echo : Json → Json
  | .null => .null
  | .bool b => .bool b
  | .natural n => ofNumberText (Nat.repr n)
  | .number x => ofNumberText (numberText x)
  | .string s => .string s
  | .array items => .array (echoItems items)
  | .object fields => .object (echoFields fields)
  | .unreadable => .null

/-- The items with their numbers as they are read. -/
def echoItems : List Json → List Json
  | [] => []
  | item :: rest => echo item :: echoItems rest

/-- The fields with their numbers as they are read. -/
def echoFields : List (String × Json) → List (String × Json)
  | [] => []
  | (key, value) :: rest => (key, echo value) :: echoFields rest

end

/-- A number is read as the float it is read back as. -/
theorem float?_echo_number (x : Float) : (echo (.number x)).float? = readBack? x := by
  rw [echo, ofNumberText, readBack?]
  rcases numberText_cases x with ⟨numeral, hwritten, hnatural⟩ | hnull
  · rw [hwritten.ofText?_eq, Option.map_some, Option.getD_some, Option.bind_some, ofNumeral,
      hnatural]
    cases numeral.scaled? <;> rfl
  · rw [hnull, ofText?_null]
    rfl

/-- A numeral is never read as null. -/
theorem ofNumeral_ne_null (numeral : Numeral) : ofNumeral numeral ≠ .null := by
  rw [ofNumeral]
  split
  · exact nofun
  · cases numeral.scaled? <;> exact nofun

/-- Only what is not finite becomes null. So a null in a text may stand for something that is absent
    and for a number that could not be written. -/
theorem echo_number_eq_null_iff (x : Float) : echo (.number x) = .null ↔ x.isFinite = false := by
  rw [← Bool.not_eq_true, ← classify_eq_finite_iff, echo]
  unfold numberText
  split
  · next negative word hclass =>
      rcases Layout.writesNumber_json hclass with ⟨numeral, hwritten, _⟩
      rw [ofNumberText, hwritten.ofText?_eq]
      exact iff_of_false (ofNumeral_ne_null numeral) fun h => h ⟨negative, word, hclass⟩
  · next hclass =>
      rw [ofNumberText, ofText?_null]
      exact iff_of_true rfl fun ⟨negative, word, h⟩ => hclass negative word h

/-- A count that fits a machine word is read as it is. -/
theorem echo_natural {n : Nat} (h : n < UInt64.size) : echo (.natural n) = .natural n := by
  have hnatural : Numeral.natural? ⟨false, Nat.toDigits 10 n, [], none⟩ = some n := by
    rw [Numeral.natural?]
    simp only [Nat.ofDigitChars_ten_toDigits]
    exact if_pos ⟨trivial, trivial, trivial, h⟩
  rw [echo, ofNumberText, (Numeral.written_repr n).ofText?_eq, Option.map_some,
    Option.getD_some, ofNumeral, hnatural]

/-! ## Depth -/

mutual

/-- How deep lists and objects are nested. -/
def depth : Json → Nat
  | .array items => itemsDepth items + 1
  | .object fields => fieldsDepth fields + 1
  | _ => 0

/-- The depth of the deepest item. -/
def itemsDepth : List Json → Nat
  | [] => 0
  | item :: rest => max (depth item) (itemsDepth rest)

/-- The depth of the deepest field. -/
def fieldsDepth : List (String × Json) → Nat
  | [] => 0
  | (_, value) :: rest => max (depth value) (fieldsDepth rest)

end

mutual

/-- The value with what is too deep made unreadable, if it is inside so many others itself. -/
def cut (held : Nat) : Json → Json
  | .array items => if held < maxDepth then .array (cutItems (held + 1) items) else .unreadable
  | .object fields =>
    if held < maxDepth then .object (cutFields (held + 1) fields) else .unreadable
  | value => value

/-- The items with what is too deep made unreadable. -/
def cutItems (held : Nat) : List Json → List Json
  | [] => []
  | item :: rest => cut held item :: cutItems held rest

/-- The fields with what is too deep made unreadable. -/
def cutFields (held : Nat) : List (String × Json) → List (String × Json)
  | [] => []
  | (key, value) :: rest => (key, cut held value) :: cutFields held rest

end

theorem itemsDepth_le_iff {items : List Json} {n : Nat} :
    itemsDepth items ≤ n ↔ ∀ item ∈ items, item.depth ≤ n := by
  induction items with
  | nil => exact iff_of_true (Nat.zero_le _) (List.forall_mem_nil _)
  | cons item rest ih => rw [itemsDepth, Nat.max_le, ih, List.forall_mem_cons]

theorem fieldsDepth_le_iff {fields : List (String × Json)} {n : Nat} :
    fieldsDepth fields ≤ n ↔ ∀ value ∈ fields.map Prod.snd, value.depth ≤ n := by
  induction fields with
  | nil => exact iff_of_true (Nat.zero_le _) (List.forall_mem_nil _)
  | cons field rest ih => rw [fieldsDepth, Nat.max_le, ih, List.map_cons, List.forall_mem_cons]

theorem depth_array_le_iff {items : List Json} {n : Nat} :
    (Json.array items).depth ≤ n + 1 ↔ ∀ item ∈ items, item.depth ≤ n := by
  rw [depth, Nat.add_le_add_iff_right, itemsDepth_le_iff]

theorem depth_object_le_iff {fields : List (String × Json)} {n : Nat} :
    (Json.object fields).depth ≤ n + 1 ↔ ∀ value ∈ fields.map Prod.snd, value.depth ≤ n := by
  rw [depth, Nat.add_le_add_iff_right, fieldsDepth_le_iff]

theorem depth_ofOption_le {α : Type} {toJson : α → Json} {o : Option α} {n : Nat}
    (h : ∀ a, o = some a → (toJson a).depth ≤ n) : (Json.ofOption toJson o).depth ≤ n := by
  cases o with
  | none => exact Nat.zero_le n
  | some a => exact h a rfl

theorem depth_ofNumberText (text : String) : (ofNumberText text).depth = 0 := by
  rw [ofNumberText]
  cases Numeral.ofText? text with
  | none => rfl
  | some numeral =>
      rw [Option.map_some, Option.getD_some, ofNumeral]
      split
      · rfl
      · cases numeral.scaled? <;> rfl

mutual

/-- Reading numbers does not change the depth. -/
theorem depth_echo (value : Json) : value.echo.depth = value.depth := by
  cases value with
  | natural n => exact depth_ofNumberText _
  | number x => exact depth_ofNumberText _
  | array items => rw [echo, depth, depth, itemsDepth_echoItems items]
  | object fields => rw [echo, depth, depth, fieldsDepth_echoFields fields]
  | _ => rfl

theorem itemsDepth_echoItems (items : List Json) :
    itemsDepth (echoItems items) = itemsDepth items := by
  cases items with
  | nil => rfl
  | cons item rest =>
      rw [echoItems, itemsDepth, itemsDepth, depth_echo item, itemsDepth_echoItems rest]

theorem fieldsDepth_echoFields (fields : List (String × Json)) :
    fieldsDepth (echoFields fields) = fieldsDepth fields := by
  cases fields with
  | nil => rfl
  | cons field rest =>
      rw [echoFields, fieldsDepth, fieldsDepth, depth_echo field.2, fieldsDepth_echoFields rest]

end

mutual

/-- What is not too deep is not cut. The levels that are already held around a value count. -/
theorem cut_eq_self (value : Json) {held : Nat} (h : held + value.depth ≤ maxDepth) :
    value.cut held = value := by
  cases value with
  | array items =>
      rw [depth] at h
      rw [cut, if_pos (by omega), cutItems_eq_self items (by omega)]
  | object fields =>
      rw [depth] at h
      rw [cut, if_pos (by omega), cutFields_eq_self fields (by omega)]
  | _ => rfl

theorem cutItems_eq_self (items : List Json) {held : Nat}
    (h : held + itemsDepth items ≤ maxDepth) : cutItems held items = items := by
  cases items with
  | nil => rfl
  | cons item rest =>
      rw [itemsDepth] at h
      rw [cutItems, cut_eq_self item (by omega), cutItems_eq_self rest (by omega)]

theorem cutFields_eq_self (fields : List (String × Json)) {held : Nat}
    (h : held + fieldsDepth fields ≤ maxDepth) : cutFields held fields = fields := by
  cases fields with
  | nil => rfl
  | cons field rest =>
      rw [fieldsDepth] at h
      rw [cutFields, cut_eq_self field.2 (by omega), cutFields_eq_self rest (by omega)]

end

mutual

/-- Nothing that is too deep is readable when it was cut. What is put in the place of the rest is
    marked as something that cannot be read, and the mark is found wherever it is. -/
theorem depth_le_of_isReadable_cut (value : Json) {held : Nat} (hheld : held ≤ maxDepth)
    (h : (value.cut held).isReadable = true) : held + value.depth ≤ maxDepth := by
  -- Only lists and records go deeper, and where they would go too deep they were cut.
  cases value with
  | array items =>
      rw [cut] at h
      split at h
      · next hlt =>
          have := itemsDepth_le_of_areReadable items hlt h
          rw [depth]
          omega
      · exact absurd h (by decide)
  | object fields =>
      rw [cut] at h
      split at h
      · next hlt =>
          have := fieldsDepth_le_of_fieldsReadable fields hlt h
          rw [depth]
          omega
      · exact absurd h (by decide)
  | _ => exact hheld

theorem itemsDepth_le_of_areReadable (items : List Json) {held : Nat} (hheld : held < maxDepth)
    (h : areReadable (cutItems (held + 1) items) = true) :
    held + 1 + itemsDepth items ≤ maxDepth := by
  cases items with
  | nil => exact hheld
  | cons item rest =>
      rw [cutItems, areReadable, Bool.and_eq_true] at h
      have hitem := depth_le_of_isReadable_cut item hheld h.1
      have hrest := itemsDepth_le_of_areReadable rest hheld h.2
      rw [itemsDepth]
      omega

theorem fieldsDepth_le_of_fieldsReadable (fields : List (String × Json)) {held : Nat}
    (hheld : held < maxDepth) (h : fieldsReadable (cutFields (held + 1) fields) = true) :
    held + 1 + fieldsDepth fields ≤ maxDepth := by
  cases fields with
  | nil => exact hheld
  | cons field rest =>
      rw [cutFields, fieldsReadable, Bool.and_eq_true] at h
      have hfield := depth_le_of_isReadable_cut field.2 hheld h.1
      have hrest := fieldsDepth_le_of_fieldsReadable rest hheld h.2
      rw [fieldsDepth]
      omega

end

end Json

end SolidModel
