import SolidModel.Json.Decode
import SolidModel.Proofs.Json.Accepted

/-!
# Parts of Values That Fit

What a decoder may rely on when it takes a value apart.

However a record is written, its fields are directly inside a list or an object. So each of them has
one level less than the record, and the record has at least one. A tagged value has the tag beside
its fields, and takes up no level of its own. Nothing else is ever taken out of a value but single
numbers, and these are finite.

## Theorems

* `Json.Fits.listed`, `Json.Fits.record?`: The items of a list and the fields of a record.
* `Json.Fits.tagged?`, `Json.Fits.required?`: The data of a tagged value, and what is taken from it.
* `Json.Fits.exists_of_choice`: The data of one of several kinds.
* `Json.isFinite_of_floats?`: A list of numbers.
-/

namespace SolidModel

namespace Json

variable {json : Json} {levels : Nat}

/-- What is inside a list is one level down. -/
theorem Fits.items {items : List Json} (h : Fits levels (.array items)) :
    ∃ n, levels = n + 1 ∧ ∀ item ∈ items, item.Fits n := by
  cases levels with
  | zero => exact absurd h.depth_le (Nat.not_succ_le_zero _)
  | succ n => exact ⟨n, rfl, fits_array_iff.mp h⟩

/-- What is inside an object is one level down. -/
theorem Fits.values {fields : List (String × Json)} (h : Fits levels (.object fields)) :
    ∃ n, levels = n + 1 ∧ ∀ value ∈ fields.map Prod.snd, value.Fits n := by
  cases levels with
  | zero => exact absurd h.depth_le (Nat.not_succ_le_zero _)
  | succ n => exact ⟨n, rfl, fits_object_iff.mp h⟩

theorem mem_values_of_mem_fieldsNamed {name : String} {fields : List (String × Json)}
    {value : Json} (h : value ∈ fieldsNamed name fields) : value ∈ fields.map Prod.snd := by
  rcases List.mem_map.mp h with ⟨field, hfield, rfl⟩
  exact List.mem_map_of_mem (List.mem_filter.mp hfield).1

/-- The items of what has to be a list are one level down. -/
theorem Fits.listed {values : List (Option Json)} (hjson : json.Fits levels)
    (h : (json.array?.map fun items => items.map some) = some values) :
    ∃ n, levels = n + 1 ∧ ∀ part, some part ∈ values → part.Fits n := by
  cases json with
  | array items =>
      rcases hjson.items with ⟨n, hlevels, hitems⟩
      refine ⟨n, hlevels, fun part hpart => hitems part ?_⟩
      rw [← Option.some.inj h, List.mem_map] at hpart
      rcases hpart with ⟨item, hitem, heq⟩
      exact Option.some.inj heq ▸ hitem
  | _ => exact nomatch h

/-- The fields of a record are one level down, whether it is an object or a list. Keys that nobody
    asked for are dropped, and what they hold is not asked about. -/
theorem Fits.record? {names : List String} {values : List (Option Json)}
    (hjson : json.Fits levels) (h : json.record? names = some values) :
    ∃ n, levels = n + 1 ∧ ∀ part, some part ∈ values → part.Fits n := by
  unfold Json.record? at h
  split at h
  · rcases hjson.values with ⟨n, hlevels, hvalues⟩
    refine ⟨n, hlevels, fun part hpart => hvalues part ?_⟩
    rcases field?_of_mem_fields h hpart with ⟨name, hname⟩
    exact mem_values_of_mem_fieldsNamed (mem_fieldsNamed_of_field? hname)
  · simp only [Option.ite_none_right_eq_some] at h
    exact hjson.listed h.2
  · exact absurd h (by simp)

/-- The data of a tagged value is on the level of the value. -/
theorem Fits.tagged? {tag data : Json} (hjson : json.Fits levels)
    (h : json.tagged? = some (tag, data)) : data.Fits levels := by
  unfold Json.tagged? at h
  split at h
  · next fields =>
      rcases hjson.values with ⟨n, rfl, hvalues⟩
      split at h
      · rw [← (Prod.mk.inj (Option.some.inj h)).2, fits_object_iff, List.forall_mem_map]
        intro field hfield
        exact hvalues _ (List.mem_map_of_mem (List.mem_filter.mp hfield).1)
      · exact absurd h (by simp)
  · rcases hjson.items with ⟨n, rfl, hitems⟩
    rw [← (Prod.mk.inj (Option.some.inj h)).2, fits_array_iff]
    exact fun item hitem => hitems item (List.mem_cons_of_mem _ hitem)
  · exact absurd h (by simp)

/-- What is required of a tagged value is one level down. -/
theorem Fits.required? {names : List String} {parts : List Json} (hjson : json.Fits levels)
    (h : required? names json = some parts) :
    ∃ n, levels = n + 1 ∧ ∀ part ∈ parts, part.Fits n := by
  simp only [Json.required?, Option.bind_eq_bind, Option.bind_eq_some_iff] at h
  rcases h with ⟨⟨tag, data⟩, htagged, values, hrecord, hparts⟩
  rcases (hjson.tagged? htagged).record? hrecord with ⟨n, hlevels, hvalues⟩
  exact ⟨n, hlevels, fun part hpart => hvalues part (mem_of_mapM_id hparts hpart)⟩

/-- The parts of a tagged value are what is required. -/
theorem required?_of_parts? {names : List String}
    {parts : List { part : Json // sizeOf part < sizeOf json }}
    (h : json.parts? names = some parts) :
    Json.required? names json = some (parts.map Subtype.val) := by
  unfold parts? at h
  split at h
  · exact absurd h (by simp)
  · next values hrequired =>
      rw [hrequired, ← Option.some.inj h, List.map_map]
      exact congrArg some (List.attach_map_subtype_val values).symm

/-- Whatever a tag means is in the table, whether it is meant by name or by position. -/
theorem mem_of_variant? {α : Type} {place : Place} {kinds : List (String × α)} {tag : Json}
    {a : α} (h : variant? place kinds tag = some a) : a ∈ kinds.map Prod.snd := by
  unfold variant? at h
  split at h
  · rcases List.lookup_eq_some_iff.mp h with ⟨before, after, heq, _⟩
    rw [heq]
    exact List.mem_map_of_mem (List.mem_append_right before List.mem_cons_self)
  · split at h
    · rcases Option.map_eq_some_iff.mp h with ⟨kind, hkind, rfl⟩
      exact List.mem_map_of_mem (List.mem_of_getElem? hkind)
    · exact absurd h (by simp)
  · exact absurd h (by simp)

/-- A tagged value is read in one of the ways in the table, from data on its own level. This is what
    all readers of tagged values have in common, whatever they read. -/
theorem Fits.exists_of_choice {α : Type} {place : Place} {kinds : List (String × (Json → Option α))}
    {a : α} (hjson : json.Fits levels)
    (h : (do
      let (tag, data) ← json.tagged?
      let read ← variant? place kinds tag
      read data) = some a) :
    ∃ read ∈ kinds.map Prod.snd, ∃ data : Json, data.Fits levels ∧ read data = some a := by
  simp only [Option.bind_eq_bind, Option.bind_eq_some_iff] at h
  rcases h with ⟨⟨tag, data⟩, htagged, read, hread, ha⟩
  exact ⟨read, mem_of_variant? hread, data, hjson.tagged? htagged, ha⟩

/-- Numbers that are read off values with finite numbers are finite. -/
theorem isFinite_of_floats? {values : List (Option Json)} {xs : List Float}
    (hvalues : ∀ part, some part ∈ values → part.IsFinite) (h : floats? values = some xs) :
    ∀ x ∈ xs, x.isFinite = true := by
  refine Option.forall_mem_of_mapM h fun value hvalue x hx => ?_
  rcases Option.bind_eq_some_iff.mp hx with ⟨part, rfl, hfloat⟩
  exact isFinite_of_float? (hvalues part hvalue) hfloat

/-- A field that is there and no null is read like any other. -/
theorem exists_of_optional? {α : Type} {decode : Json → Option α} {field : Option Json} {a : α}
    (h : optional? decode field = some (some a)) :
    ∃ part, field = some part ∧ decode part = some a := by
  unfold optional? at h
  split at h
  · exact absurd h (by simp)
  · exact absurd h (by simp)
  · next part _ =>
      rcases Option.map_eq_some_iff.mp h with ⟨a', ha, heq⟩
      exact ⟨part, rfl, Option.some.inj heq ▸ ha⟩

end Json

end SolidModel
