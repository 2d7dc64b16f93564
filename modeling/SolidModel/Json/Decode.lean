import SolidModel.Json.Basic
import SolidModel.Decimal.Nearest

/-!
# Decoding JSON

Reading plain data off JSON values.

A record may be written as an object, with its fields in any order and with fields that mean
nothing here, or as the list of its fields in their proper order. A field given twice is
refused if it means something and ignored if it does not. Absent and null are the same for a
field that may be absent, and absent is an error for any other.

A choice between kinds of data is written as a record with a tag: an object that has the tag
among its fields, or a list that has it in front of them. A tagged value held by another one may
give its tag by position instead of by name, counted from zero, and a bare choice held by one
may carry an empty object; on their own they may not. `Json.Place` tells the two situations
apart.

The two kinds of data also differ in how much of a text they look at. A record is read field by
field, and what stands in a field that means nothing is passed by, readable or not. A tagged
value is taken in whole before its tag is found, and so is data whose kind only shows from the
value itself, so no part of either may be unreadable. The readers of a text, each called
`ofText?`, therefore skim it for a record and parse it for the others.

## Main definitions

* `Json.float?`, `Json.bool?`, `Json.naturalBelow?`: Plain values.
* `Json.field?`: The only field of a name.
* `Json.record?`, `Json.recordStart?`: The fields of a record in order.
* `Json.optional?`: A field that may be absent.
* `Json.tagged?`, `Json.parts?`: The tag of a choice, and the data beside it.
* `Json.variant?`, `Json.choice?`: Which of several kinds is meant.

## Theorems

* `Json.sizeOf_field_lt`: A field is smaller than the record it is found in.
* `Json.sizeOf_required_lt`: What is required of a tagged value is smaller than it.
* `Json.parts?_eq_some`: The parts are what is required.
-/

namespace SolidModel

namespace Json

/-- Whether a value stands on its own or is held by a tagged one. -/
inductive Place where
  | alone
  | held
deriving DecidableEq, Repr

/-- A number of any kind, as a float. -/
def float? : Json → Option Float
  | .natural n => (Decimal.mk n 0).toFloat? false
  | .number x => some x
  | _ => none

/-- A truth value. -/
def bool? : Json → Option Bool
  | .bool b => some b
  | _ => none

/-- A plain natural number below a bound. -/
def naturalBelow? (bound : Nat) : Json → Option Nat
  | .natural n => if n < bound then some n else none
  | _ => none

/-- A list of values. -/
def array? : Json → Option (List Json)
  | .array items => some items
  | _ => none

/-- The fields with a given name. -/
def fieldsNamed (name : String) (fields : List (String × Json)) : List Json :=
  (fields.filter fun field => field.1 == name).map Prod.snd

/-- The only field of a name, or nothing inside if there is none. Two of them are an error. -/
def field? (name : String) (fields : List (String × Json)) : Option (Option Json) :=
  match fieldsNamed name fields with
  | [] => some none
  | [value] => some (some value)
  | _ => none

/-- The only fields of several names, in the order of the names. -/
def fields? (names : List String) (fields : List (String × Json)) : Option (List (Option Json)) :=
  names.mapM fun name => field? name fields

/-- The fields of a record in order, from an object or from a list of them all. -/
def record? (names : List String) : Json → Option (List (Option Json))
  | .object fields => fields? names fields
  | .array items => if items.length = names.length then some (items.map some) else none
  | _ => none

/-- The fields of a record in order, from an object or from a list of the first of them. -/
def recordStart? (names : List String) : Json → Option (List (Option Json))
  | .object fields => fields? names fields
  | .array items =>
    if items.length ≤ names.length then
      some (items.map some ++ List.replicate (names.length - items.length) none)
    else none
  | _ => none

/-- A field that may be absent, which null says as well. -/
def optional? {α : Type} (decode : Json → Option α) : Option Json → Option (Option α)
  | none => some none
  | some .null => some none
  | some value => (decode value).map some

/-- A field with a default for where it is absent. -/
def orDefault? {α : Type} (fallback : α) (decode : Json → Option α) : Option Json → Option α
  | none => some fallback
  | some value => decode value

/-- Numbers from values that all have to be there. -/
def floats? (values : List (Option Json)) : Option (List Float) :=
  values.mapM fun value => value.bind float?

/-- The name of the field that holds a tag. -/
def tagName : String := "type"

/-- The tag of a tagged value, and the record of the data beside it. -/
def tagged? : Json → Option (Json × Json)
  | .object fields =>
    match fieldsNamed tagName fields with
    | [tag] => some (tag, .object (fields.filter fun field => field.1 != tagName))
    | _ => none
  | .array (tag :: items) => some (tag, .array items)
  | _ => none

/-- The data of a tagged value in order, all of which has to be there. -/
def required? (names : List String) (json : Json) : Option (List Json) := do
  let (_, data) ← json.tagged?
  let fields ← data.record? names
  fields.mapM id

/-- Which of the kinds in a table a tag means. -/
def variant? {α : Type} (place : Place) (kinds : List (String × α)) : Json → Option α
  | .string name => kinds.lookup name
  | .natural n => if place = .held then kinds[n]?.map Prod.snd else none
  | _ => none

/-- Which of the kinds in a table a bare choice means: a name, or an object from a name to
    nothing. -/
def choice? {α : Type} (place : Place) (kinds : List (String × α)) : Json → Option α
  | .string name => kinds.lookup name
  | .object [(name, .null)] => kinds.lookup name
  | .object [(name, .object [])] => if place = .held then kinds.lookup name else none
  | _ => none

/-- A value among the fields is smaller than the object. -/
theorem sizeOf_fieldsNamed_lt {name : String} {fields : List (String × Json)} {value : Json}
    (h : value ∈ fieldsNamed name fields) : sizeOf value < sizeOf (Json.object fields) := by
  simp only [fieldsNamed, List.mem_map, List.mem_filter] at h
  rcases h with ⟨⟨key, v⟩, ⟨hm, _⟩, hv⟩
  have h1 := List.sizeOf_lt_of_mem hm
  simp only at hv
  simp only [Prod.mk.sizeOf_spec, hv] at h1
  simp only [object.sizeOf_spec]
  omega

/-- What is there was there before all of it had to be. -/
theorem mem_of_mapM_id {parts : List Json} {fields : List (Option Json)}
    (h : fields.mapM id = some parts) {part : Json} (hp : part ∈ parts) : some part ∈ fields := by
  induction fields generalizing parts with
  | nil =>
      simp only [List.mapM_nil, Option.pure_def, Option.some.injEq] at h
      rw [← h] at hp
      exact absurd hp (List.not_mem_nil)
  | cons field rest ih =>
      simp only [List.mapM_cons, id_eq, Option.bind_eq_bind, Option.bind_eq_some_iff,
        Option.pure_def, Option.some.injEq] at h
      rcases h with ⟨first, hfirst, others, hothers, heq⟩
      rw [← heq] at hp
      rcases List.mem_cons.mp hp with hp | hp
      · rw [hp, hfirst]
        exact List.mem_cons_self
      · exact List.mem_cons_of_mem _ (ih hothers hp)

/-- A value among the fields of a record is the field of some name. -/
theorem field?_of_mem_fields {names : List String} {fields : List (String × Json)}
    {values : List (Option Json)} (h : fields? names fields = some values) {value : Json}
    (hv : some value ∈ values) : ∃ name, field? name fields = some (some value) := by
  unfold fields? at h
  induction names generalizing values with
  | nil =>
      simp only [List.mapM_nil, Option.pure_def, Option.some.injEq] at h
      rw [← h] at hv
      exact absurd hv (List.not_mem_nil)
  | cons name rest ih =>
      simp only [List.mapM_cons, Option.bind_eq_bind, Option.bind_eq_some_iff, Option.pure_def,
        Option.some.injEq] at h
      rcases h with ⟨first, hfirst, others, hothers, heq⟩
      rw [← heq] at hv
      rcases List.mem_cons.mp hv with hv | hv
      · exact ⟨name, by rw [hfirst, hv]⟩
      · exact ih hothers hv

/-- The only field of a name has that name. -/
theorem mem_fieldsNamed_of_field? {name : String} {fields : List (String × Json)} {value : Json}
    (h : field? name fields = some (some value)) : value ∈ fieldsNamed name fields := by
  unfold field? at h
  split at h
  · exact absurd h (by simp)
  · next v hv =>
      simp only [Option.some.injEq] at h
      rw [hv, h]
      exact List.mem_singleton.mpr rfl
  · exact absurd h (by simp)

/-- A field is smaller than the record it is found in. -/
theorem sizeOf_field_lt {names : List String} {record value : Json}
    {values : List (Option Json)} (h : record.record? names = some values)
    (hv : some value ∈ values) : sizeOf value < sizeOf record := by
  unfold record? at h
  split at h
  · rcases field?_of_mem_fields h hv with ⟨name, hf⟩
    exact sizeOf_fieldsNamed_lt (mem_fieldsNamed_of_field? hf)
  · split at h
    · simp only [Option.some.injEq] at h
      rw [← h, List.mem_map] at hv
      rcases hv with ⟨item, hm, hi⟩
      have := List.sizeOf_lt_of_mem hm
      simp only [Option.some.injEq] at hi
      rw [hi] at this
      simp only [array.sizeOf_spec]
      omega
    · exact absurd h (by simp)
  · exact absurd h (by simp)

/-- Leaving out items makes no list larger. -/
theorem sizeOf_filter_le {α : Type} [SizeOf α] (p : α → Bool) (xs : List α) :
    sizeOf (xs.filter p) ≤ sizeOf xs := by
  induction xs with
  | nil => exact Nat.le_of_eq rfl
  | cons x rest ih =>
      rw [List.filter_cons]
      split <;> simp only [List.cons.sizeOf_spec] <;> omega

/-- The data of a tagged value is no larger than all of it. -/
theorem sizeOf_tagged_le {json tag data : Json} (h : json.tagged? = some (tag, data)) :
    sizeOf data ≤ sizeOf json := by
  unfold tagged? at h
  split at h
  · next fields =>
      split at h
      · simp only [Option.some.injEq, Prod.mk.injEq] at h
        have := sizeOf_filter_le (fun field => field.1 != tagName) fields
        rw [← h.2]
        simp only [object.sizeOf_spec]
        omega
      · exact absurd h (by simp)
  · simp only [Option.some.injEq, Prod.mk.injEq] at h
    rw [← h.2]
    simp only [array.sizeOf_spec, List.cons.sizeOf_spec]
    omega
  · exact absurd h (by simp)

/-- What is required of a tagged value is smaller than it. -/
theorem sizeOf_required_lt {names : List String} {json part : Json} {parts : List Json}
    (h : required? names json = some parts) (hp : part ∈ parts) : sizeOf part < sizeOf json := by
  simp only [required?, Option.bind_eq_bind, Option.bind_eq_some_iff] at h
  rcases h with ⟨⟨tag, data⟩, ht, fields, hf, hm⟩
  exact Nat.lt_of_lt_of_le (sizeOf_field_lt hf (mem_of_mapM_id hm hp)) (sizeOf_tagged_le ht)

/-- The data of a tagged value in order, all of which has to be there. Each part comes with the
    reason why going into it ends. -/
def parts? (json : Json) (names : List String) :
    Option (List { part : Json // sizeOf part < sizeOf json }) :=
  match h : required? names json with
  | none => none
  | some parts => some (parts.attach.map fun part => ⟨part.1, sizeOf_required_lt h part.2⟩)

/-- The parts are what is required. -/
theorem parts?_eq_some {names : List String} {json : Json} {parts : List Json}
    (h : required? names json = some parts) :
    json.parts? names =
      some (parts.attach.map fun part => ⟨part.1, sizeOf_required_lt h part.2⟩) := by
  unfold parts?
  split
  · next h' => exact absurd (h.symm.trans h') (by simp)
  · next h' =>
      have heq := h.symm.trans h'
      simp only [Option.some.injEq] at heq
      subst heq
      rfl

end Json

end SolidModel
