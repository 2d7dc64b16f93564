import SolidModel.Proofs.Json.Echo
import SolidModel.Proofs.Success

/-!
# Taking Written Records Apart

What a decoder finds in a record that has its fields under their names and in their order.

A decoder looks fields up by name, one at a time, and accepts them in any order. What is written has
them in the proper order, each of them once. Then looking up all names gives all values, in this
order too, and nothing has to be known about the names but that they are different. A tagged value
is such a record with the tag in front; as no field has the name of the tag, taking off the tag
leaves the record.

Numbers are then read as they are read back. All of a list of numbers come out as they were if each
of them does. What has to be a list or an object is never found where a number was written.

## Main definitions

* `Json.ReadsAs`: A number is read where another one was written.
* `Json.AllReadBack`: All numbers are read as they were written.

## Theorems

* `Json.record?_echo`: The values of a record in order.
* `Json.tagged?_echo`: The tag of a tagged value, and what is beside it.
* `Json.bind_tagged?`: A tagged value is read as its tag says.
* `Json.required?_echo`: The data of a tagged value in order.
* `Json.floats?_echo`: A list of numbers is read number by number.
* `Json.mapM_readBack?_iff`: A list of numbers is read as what each of them is read as.
* `Json.optional?_echo_iff`: A field that may be absent, and is if it is written as null.
-/

namespace SolidModel

namespace Json

/-! ## Records -/

theorem fieldsNamed_cons (name key : String) (value : Json) (fields : List (String × Json)) :
    fieldsNamed name ((key, value) :: fields) =
      if key = name then value :: fieldsNamed name fields else fieldsNamed name fields := by
  rw [fieldsNamed, List.filter_cons]
  simp only [beq_iff_eq]
  split <;> rfl

theorem fieldsNamed_zip {name : String} {names : List String} (h : name ∉ names)
    (values : List Json) : fieldsNamed name (names.zip values) = [] := by
  induction names generalizing values with
  | nil => rfl
  | cons key names ih =>
      cases values with
      | nil => rfl
      | cons value values =>
          rw [List.mem_cons, not_or] at h
          rw [List.zip_cons_cons, fieldsNamed_cons, if_neg (Ne.symm h.1), ih h.2]

/-- A field that nobody looks for might as well not be there. -/
theorem fields?_cons {key : String} {names : List String} (h : key ∉ names) (value : Json)
    (fields : List (String × Json)) :
    fields? names ((key, value) :: fields) = fields? names fields := by
  rw [fields?, fields?]
  induction names with
  | nil => rfl
  | cons name names ih =>
      rw [List.mem_cons, not_or] at h
      rw [List.mapM_cons, List.mapM_cons, ih h.2, field?, fieldsNamed_cons, if_neg h.1, ← field?]

theorem fields?_zip {names : List String} (hnodup : names.Nodup) {values : List Json}
    (hlength : names.length = values.length) :
    fields? names (names.zip values) = some (values.map some) := by
  induction names generalizing values with
  | nil =>
      rw [List.eq_nil_of_length_eq_zero hlength.symm]
      rfl
  | cons name names ih =>
      cases values with
      | nil => exact absurd hlength (Nat.succ_ne_zero _)
      | cons value values =>
          rw [List.nodup_cons] at hnodup
          have hfield : field? name ((name, value) :: names.zip values) = some (some value) := by
            rw [field?, fieldsNamed_cons, if_pos rfl, fieldsNamed_zip hnodup.1]
          have hrest := ih hnodup.2 (Nat.succ_inj.mp hlength)
          rw [← fields?_cons hnodup.1 value, fields?] at hrest
          rw [List.zip_cons_cons, fields?, List.mapM_cons, hfield, hrest]
          rfl

theorem echoFields_zip (names : List String) (values : List Json) :
    echoFields (names.zip values) = names.zip (values.map echo) := by
  induction names generalizing values with
  | nil => rfl
  | cons name names ih =>
      cases values with
      | nil => rfl
      | cons value values =>
          rw [List.map_cons, List.zip_cons_cons, List.zip_cons_cons, echoFields, ih]

/-- The values of a record in order. Names must not repeat, since a reader that finds one twice
    refuses the record. -/
theorem record?_echo {names : List String} (hnodup : names.Nodup) (values : List Json)
    (hlength : names.length = values.length) :
    (Json.object (names.zip values)).echo.record? names =
      some (values.map fun value => some value.echo) := by
  have hfields := @fields?_zip names hnodup (values.map echo) (by rw [hlength, List.length_map])
  rw [List.map_map] at hfields
  rw [echo, echoFields_zip]
  exact hfields

/-! ## Tagged values -/

/-- The tag of a tagged value, and what is beside it. No field may have the name of the tag, or it
    would be taken for a second one. -/
theorem tagged?_echo {names : List String} (h : tagName ∉ names) (kind : String)
    (values : List Json) :
    (Json.object ((tagName, .string kind) :: names.zip values)).echo.tagged? =
      some (.string kind, (Json.object (names.zip values)).echo) := by
  have hfilter : (names.zip (values.map echo)).filter (fun field => field.1 != tagName) =
      names.zip (values.map echo) := by
    rw [List.filter_eq_self]
    intro field hfield
    rw [bne_iff_ne]
    exact fun heq => h (heq ▸ (List.of_mem_zip hfield).1)
  rw [echo, echo, echoFields, echo, echoFields_zip, tagged?]
  simp only [fieldsNamed_cons, fieldsNamed_zip h, List.filter_cons, bne_self_eq_false, hfilter,
    ↓reduceIte, Bool.false_eq_true]

/-- A tagged value is read as its tag says, from what is beside the tag. -/
theorem bind_tagged? {α : Type} {place : Place} {kinds : List (String × (Json → Option α))}
    {json data : Json} {kind : String} {read : Json → Option α}
    (htagged : json.tagged? = some (.string kind, data)) (hkind : kinds.lookup kind = some read) :
    (do
      let (tag, data) ← json.tagged?
      let read ← variant? place kinds tag
      read data) = read data := by
  simp only [htagged, Option.bind_eq_bind, Option.bind_some, variant?, hkind]

theorem mapM_id_map_some (values : List Json) :
    (values.map fun value => some value.echo).mapM id = some (values.map echo) := by
  induction values with
  | nil => rfl
  | cons value values ih =>
      rw [List.map_cons, List.mapM_cons, ih]
      rfl

/-- The data of a tagged value in order. -/
theorem required?_echo {names : List String} (htag : tagName ∉ names) (hnodup : names.Nodup)
    (kind : String) (values : List Json) (hlength : names.length = values.length) :
    required? names (Json.object ((tagName, .string kind) :: names.zip values)).echo =
      some (values.map echo) := by
  rw [required?, tagged?_echo htag]
  simp only [Option.bind_eq_bind, Option.bind_some, record?_echo hnodup values hlength,
    mapM_id_map_some]

/-! ## Numbers -/

/-- The second number is read where the first one was written. -/
def ReadsAs (x y : Float) : Prop := readBack? x = some y

theorem ReadsAs.isFinite {x y : Float} (h : ReadsAs x y) : x.isFinite = true :=
  isFinite_of_readBack? h

/-- All numbers are read as they were written, to the last bit. It can be decided for any numbers
    that are given. -/
def AllReadBack (xs : List Float) : Prop := ∀ x ∈ xs, readBack? x = some x

instance : DecidablePred AllReadBack := fun xs =>
  inferInstanceAs (Decidable (∀ x ∈ xs, readBack? x = some x))

theorem allReadBack_nil : AllReadBack [] := fun _ h => absurd h List.not_mem_nil

theorem allReadBack_cons {x : Float} {xs : List Float} :
    AllReadBack (x :: xs) ↔ readBack? x = some x ∧ AllReadBack xs := List.forall_mem_cons

theorem allReadBack_append {xs ys : List Float} :
    AllReadBack (xs ++ ys) ↔ AllReadBack xs ∧ AllReadBack ys := List.forall_mem_append

theorem bool?_echo_bool (b : Bool) : (Json.bool b).echo.bool? = some b := rfl

/-- A list of numbers is read number by number. -/
theorem floats?_echo (xs : List Float) :
    floats? ((xs.map Json.number).map fun value => some value.echo) = xs.mapM readBack? := by
  rw [floats?, List.mapM_map, List.mapM_map]
  refine congrArg (fun f => xs.mapM f) (funext fun x => ?_)
  exact float?_echo_number x

/-- A list of numbers is read as what each of them is read as. -/
theorem mapM_readBack?_iff {xs ys : List Float} :
    xs.mapM readBack? = some ys ↔ List.Forall₂ ReadsAs xs ys := Option.mapM_eq_some_iff

/-- Where a number was written there is neither a list nor an object. -/
theorem record?_echo_number (names : List String) (x : Float) :
    (echo (.number x)).record? names = none := by
  have hdepth : (echo (.number x)).depth = 0 := depth_ofNumberText _
  cases h : echo (.number x) <;> first | rfl | exact absurd (h ▸ hdepth) (Nat.succ_ne_zero _)

theorem array?_echo_number (x : Float) : (echo (.number x)).array? = none := by
  have hdepth : (echo (.number x)).depth = 0 := depth_ofNumberText _
  cases h : echo (.number x) <;> first | rfl | exact absurd (h ▸ hdepth) (Nat.succ_ne_zero _)

/-! ## Fields that may be absent -/

-- What is absent and what is written as null are not told apart. So the absent value is related to
-- none, and one that is written as null is as well.
/-- A field that may be absent is there if it is written as something else than null, and is then
    read like any other. What is written as null although it is there comes back as absent, and
    nobody can tell. -/
theorem optional?_echo_iff {α β : Type} {toJson : α → Json} {decode : Json → Option β}
    {written : α → Bool} {q : α → β → Prop}
    (hnull : ∀ a, (toJson a).echo = .null ↔ written a = false)
    (hecho : ∀ a b, decode (toJson a).echo = some b ↔ q a b) (o : Option α) (p : Option β) :
    optional? decode (some (Json.ofOption toJson o).echo) = some p ↔
      Option.Rel q (o.filter written) p := by
  have hnone : (some none = some p) ↔ Option.Rel q none p := by
    cases p with
    | none => exact iff_of_true rfl .none
    | some b => exact iff_of_false nofun nofun
  cases o with
  | none => exact hnone
  | some a =>
      rw [Json.ofOption]
      cases hwritten : written a with
      | false =>
          rw [(hnull a).mpr hwritten, Option.filter_some_neg (by simp [hwritten])]
          exact hnone
      | true =>
          have hne : (toJson a).echo ≠ .null := fun h => by simp [(hnull a).mp h] at hwritten
          have hmap : optional? decode (some (toJson a).echo) =
              (decode (toJson a).echo).map some := by
            rw [optional?]
            exact hne
          rw [hmap, Option.filter_some_pos hwritten]
          simp only [Option.map_eq_some_iff, hecho]
          cases p with
          | none => exact iff_of_false nofun nofun
          | some b =>
              exact ⟨fun ⟨_, hq, heq⟩ => .some (Option.some.inj heq ▸ hq),
                fun | .some hq => ⟨b, hq, rfl⟩⟩

/-! ## Readable values -/

theorem isReadable_of_float? {json : Json} {x : Float} (h : json.float? = some x) :
    json.isReadable = true := by
  cases json <;> first | rfl | exact absurd h (by simp [float?])

theorem ReadsAs.isReadable {x y : Float} (h : ReadsAs x y) :
    (Json.number x).echo.isReadable = true :=
  isReadable_of_float? ((float?_echo_number x).trans h)

theorem isReadable_numbers {xs ys : List Float} (h : List.Forall₂ ReadsAs xs ys) :
    ∀ value ∈ xs.map Json.number, value.echo.isReadable = true := by
  induction h with
  | nil => exact List.forall_mem_nil _
  | cons hx _ ih => exact List.forall_mem_cons.mpr ⟨hx.isReadable, ih⟩

theorem isReadable_ofOption {α : Type} {toJson : α → Json} {o : Option α}
    (h : ∀ a, o = some a → (toJson a).echo.isReadable = true) :
    (Json.ofOption toJson o).echo.isReadable = true := by
  cases o with
  | none => rfl
  | some a => exact h a rfl

/-- A list is readable if all its items are. -/
theorem isReadable_array {items : List Json}
    (h : ∀ item ∈ items, item.echo.isReadable = true) :
    (Json.array items).echo.isReadable = true := by
  rw [echo, isReadable]
  induction items with
  | nil => rfl
  | cons item items ih =>
      rw [List.forall_mem_cons] at h
      rw [echoItems, areReadable, h.1, ih h.2]
      rfl

/-- An object is readable if all its values are. -/
theorem isReadable_object {fields : List (String × Json)}
    (h : ∀ value ∈ fields.map Prod.snd, value.echo.isReadable = true) :
    (Json.object fields).echo.isReadable = true := by
  rw [echo, isReadable]
  induction fields with
  | nil => rfl
  | cons field fields ih =>
      rw [List.map_cons, List.forall_mem_cons] at h
      rw [echoFields, fieldsReadable, h.1, ih h.2]
      rfl

end Json

end SolidModel
