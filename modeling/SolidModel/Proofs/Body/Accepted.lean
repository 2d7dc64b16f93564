import SolidModel.Proofs.Body.Losses
import SolidModel.Proofs.Json.Parts

/-!
# Bodies That Were Read

What is known of every body that was read, and of every part of one.

A body can be written in many ways: its fields in any order and others among them, its vectors and
colors as lists, a count where a measure is meant, a field left out where it may be absent. However
it was written, a body that was read has finite numbers only, since these are single numbers of the
text. And its own form is not nested deeper than the text was. Each of its nodes is a record there,
which takes up one level however it is written, and each vector is one again.

So a body that was read is written as a text that can be read.

## Main definitions

* `Body.DecodesFrom`: The parts of a value from which those of a body are decoded.

## Theorems

* `Vec3.finite_of_ofJson?`, `Color.finite_of_ofJson?`: Records of numbers.
* `Primitive.finite_of_ofJson?`, `Transformation.finite_of_ofJson?`: What is at a node.
* `Body.finite_of_ofJson?`: A body that is decoded is finite and not too deep.
* `Body.ofText?_toText_of_ofText?`: A body that was read is read from its own text.
-/

namespace SolidModel

open Json

variable {json : Json} {levels : Nat} {form : Vec3.Form}

/-! ## Parts of a body -/

/-- A vector that is decoded takes up a level, and its numbers are finite. Both forms do, the list
    of three numbers and the record. -/
theorem Vec3.finite_of_ofJson? {v : Vec3} (hjson : json.Fits levels)
    (h : ofJson? form json = some v) : 1 ≤ levels ∧ ∀ x ∈ v.toList, x.isFinite = true := by
  have hparts : ∃ n components, levels = n + 1 ∧ (∀ part, some part ∈ components → part.Fits n) ∧
      (floats? components).bind ofList? = some v := by
    cases form with
    | list =>
        rcases Option.bind_eq_some_iff.mp h with ⟨components, hcomponents, hv⟩
        rcases hjson.listed hcomponents with ⟨n, hlevels, hfits⟩
        exact ⟨n, components, hlevels, hfits, hv⟩
    | record =>
        rcases Option.bind_eq_some_iff.mp h with ⟨components, hcomponents, hv⟩
        rcases hjson.record? hcomponents with ⟨n, hlevels, hfits⟩
        exact ⟨n, components, hlevels, hfits, hv⟩
  rcases hparts with ⟨n, components, rfl, hfits, hv⟩
  rcases Option.bind_eq_some_iff.mp hv with ⟨xs, hxs, hv⟩
  rw [ofList?_eq_some_iff] at hv
  exact ⟨Nat.le_add_left 1 n,
    isFinite_of_floats? (fun part h => (hfits part h).isFinite) (hv ▸ hxs)⟩

theorem Color.finite_of_ofJson? {c : Color} (hjson : json.Fits levels)
    (h : ofJson? json = some c) : 1 ≤ levels ∧ ∀ x ∈ c.toList, x.isFinite = true := by
  simp only [ofJson?, Option.bind_eq_bind, Option.bind_eq_some_iff] at h
  rcases h with ⟨values, hvalues, channels, hchannels, hc⟩
  rcases hjson.record? hvalues with ⟨n, rfl, hfits⟩
  have hfinite := isFinite_of_floats? (fun part h => (hfits part h).isFinite) hchannels
  split at hc
  · exact ⟨Nat.le_add_left 1 n, Option.some.inj hc ▸ hfinite⟩
  · exact absurd hc (by simp)

theorem Frustum.finite_of_ofJson? {f : Frustum} (hjson : json.Fits levels)
    (h : ofJson? json = some f) : 1 ≤ levels ∧ ∀ x ∈ f.numbers, x.isFinite = true := by
  rcases Option.bind_eq_some_iff.mp h with ⟨values, hvalues, hfields⟩
  rcases hjson.record? hvalues with ⟨n, rfl, hfits⟩
  have hfinite : ∀ {part : Json} {x : Float}, some part ∈ values → part.float? = some x →
      x.isFinite = true := fun hpart hx => isFinite_of_float? (hfits _ hpart).isFinite hx
  refine ⟨Nat.le_add_left 1 n, ?_⟩
  unfold ofFields? at hfields
  split at hfields
  · simp only [Option.bind_eq_bind, Option.bind_eq_some_iff, Option.pure_def,
      Option.some.injEq] at hfields
    rcases hfields with
      ⟨bottom, rfl, b, hb, top, rfl, t, ht, height, rfl, h, hh, _, _, _, _, _, _, rfl⟩
    simp only [List.mem_cons] at hfinite
    exact List.forall_mem_cons.mpr ⟨hfinite (.inl rfl) hb,
      forall_mem_pair (hfinite (.inr (.inl rfl)) ht) (hfinite (.inr (.inr (.inl rfl))) hh)⟩
  · exact absurd hfields (by simp)

theorem Primitive.depth_toJson (p : Primitive) : p.toJson.depth = 1 := by
  cases p with
  | frustum f =>
      rcases f with ⟨_, _, _, _, _ | _⟩ <;> rfl
  | sphere x => rfl

theorem Primitive.finite_of_ofJson? {place : Place} {p : Primitive} (hjson : json.Fits levels)
    (h : ofJson? place json = some p) :
    p.toJson.depth ≤ levels ∧ ∀ x ∈ p.numbers, x.isFinite = true := by
  rw [depth_toJson]
  rcases hjson.exists_of_choice h with ⟨read, hread, data, hdata, hp⟩
  simp only [kinds, List.map_cons, List.map_nil, List.mem_cons, List.not_mem_nil, or_false] at hread
  rcases hread with rfl | rfl
  · rcases Option.map_eq_some_iff.mp hp with ⟨f, hf, rfl⟩
    exact Frustum.finite_of_ofJson? hdata hf
  · rcases Option.map_eq_some_iff.mp hp with ⟨x, hx, rfl⟩
    rcases Option.bind_eq_some_iff.mp hx with ⟨values, hvalues, hdiameter⟩
    rcases hdata.record? hvalues with ⟨n, rfl, hfits⟩
    refine ⟨Nat.le_add_left 1 n, List.forall_mem_singleton.mpr ?_⟩
    unfold diameter? at hdiameter
    split at hdiameter
    · rcases Option.bind_eq_some_iff.mp hdiameter with ⟨part, rfl, hfloat⟩
      exact isFinite_of_float? (hfits part List.mem_cons_self).isFinite hfloat
    · exact absurd hdiameter (by simp)

/-! ## Movements -/

theorem Angle.finite_of_ofJson? {a : Angle} (hjson : json.Fits levels)
    (h : ofJson? form json = some a) :
    (a.toJson form).depth ≤ levels ∧ ∀ x ∈ a.numbers, x.isFinite = true := by
  unfold ofJson? at h
  split at h
  · next x hx =>
      rw [← Option.some.inj h]
      exact ⟨Nat.zero_le _, List.forall_mem_singleton.mpr (isFinite_of_float? hjson.isFinite hx)⟩
  · rcases Option.map_eq_some_iff.mp h with ⟨v, hv, rfl⟩
    have hvector := Vec3.finite_of_ofJson? hjson hv
    exact ⟨(v.depth_toJson form).symm ▸ hvector.1, hvector.2⟩

/-- A rotation that is decoded takes up a level, and its fields are one level down. -/
theorem Rotation.finite_of_ofJson? {r : Rotation} (hjson : json.Fits levels)
    (h : ofJson? form json = some r) :
    (∃ n, levels = n + 1 ∧ ∀ value ∈ (r.toFields form).map Prod.snd, value.depth ≤ n) ∧
      ∀ x ∈ r.numbers, x.isFinite = true := by
  rcases Option.bind_eq_some_iff.mp h with ⟨values, hvalues, hfields⟩
  rcases hjson.record? hvalues with ⟨n, rfl, hfits⟩
  unfold ofFields? at hfields
  split at hfields
  · next anglePart polePart =>
    simp only [Option.bind_eq_bind, Option.bind_eq_some_iff, Option.pure_def,
      Option.some.injEq] at hfields
    rcases hfields with ⟨angle, hangle, pole, hpole, rfl⟩
    -- Angle and pole are both optional, and what is said of them is said if they are there.
    have hangle' : ∀ a, angle = some a →
        (a.toJson form).depth ≤ n ∧ ∀ x ∈ a.numbers, x.isFinite = true := by
      rintro a rfl
      rcases exists_of_optional? hangle with ⟨part, rfl, ha⟩
      exact Angle.finite_of_ofJson? (hfits part List.mem_cons_self) ha
    have hpole' : ∀ v, pole = some v → 1 ≤ n ∧ ∀ x ∈ v.toList, x.isFinite = true := by
      rintro v rfl
      rcases exists_of_optional? hpole with ⟨part, rfl, hv⟩
      exact Vec3.finite_of_ofJson?
        (hfits part (List.mem_cons_of_mem _ List.mem_cons_self)) hv
    refine ⟨⟨n, rfl, forall_mem_pair (depth_ofOption_le fun a ha => (hangle' a ha).1)
      (depth_ofOption_le fun v hv => (v.depth_toJson form).symm ▸ (hpole' v hv).1)⟩, ?_⟩
    rw [numbers, List.forall_mem_append]
    constructor
    · cases angle with
      | none => exact List.forall_mem_nil _
      | some a => exact (hangle' a rfl).2
    · cases pole with
      | none => exact List.forall_mem_nil _
      | some v => exact (hpole' v rfl).2
  · exact absurd hfields (by simp)

theorem Transformation.finite_of_vector? {name : String} {v : Vec3} (hjson : json.Fits levels)
    (h : vector? form name json = some v) :
    2 ≤ levels ∧ ∀ x ∈ v.toList, x.isFinite = true := by
  unfold vector? at h
  split at h
  · next part hvalues =>
      rcases hjson.record? hvalues with ⟨n, rfl, hfits⟩
      have hvector := Vec3.finite_of_ofJson? (hfits part List.mem_cons_self) h
      exact ⟨Nat.succ_le_succ hvector.1, hvector.2⟩
  · exact absurd h (by simp)

theorem Transformation.finite_of_ofJson? {place : Place} {t : Transformation}
    (hjson : json.Fits levels) (h : ofJson? form place json = some t) :
    (t.toJson form).depth ≤ levels ∧ ∀ x ∈ t.numbers, x.isFinite = true := by
  rcases hjson.exists_of_choice h with ⟨read, hread, data, hdata, ht⟩
  simp only [kinds, List.map_cons, List.map_nil, List.mem_cons, List.not_mem_nil, or_false] at hread
  rcases hread with rfl | rfl | rfl
  · rcases Option.map_eq_some_iff.mp ht with ⟨v, hv, rfl⟩
    have hvector := finite_of_vector? hdata hv
    exact ⟨Nat.le_trans (depth_toJson_le form (.translate v)) hvector.1, hvector.2⟩
  · rcases Option.map_eq_some_iff.mp ht with ⟨r, hr, rfl⟩
    rcases Rotation.finite_of_ofJson? hdata hr with ⟨⟨n, rfl, hfields⟩, hnumbers⟩
    exact ⟨depth_object_le_iff.mpr (List.forall_mem_cons.mpr ⟨Nat.zero_le n, hfields⟩), hnumbers⟩
  · rcases Option.map_eq_some_iff.mp ht with ⟨v, hv, rfl⟩
    have hvector := finite_of_vector? hdata hv
    exact ⟨Nat.le_trans (depth_toJson_le form (.scale v)) hvector.1, hvector.2⟩

/-! ## Bodies -/

namespace Body

/-- The parts of a value from which those of a body are decoded. -/
def DecodesFrom (json : Json) : Body → Prop
  | .primitive solid => ∃ part, required? Kind.primitive.partNames json = some [part] ∧
      Primitive.ofJson? .held part = some solid
  | .composition _ operands => ∃ part items,
      required? Kind.composition.partNames json = some [part, .array items] ∧
      ofJsonAll? items = some operands
  | .moved step child => ∃ part rest,
      required? Kind.moved.partNames json = some [part, rest] ∧
      Transformation.ofJson? .record .held part = some step ∧ ofJson? .held rest = some child
  | .colored color child => ∃ part rest,
      required? Kind.colored.partNames json = some [part, rest] ∧
      Color.ofJson? part = some color ∧ ofJson? .held rest = some child

theorem decodesFrom_of_ofJson? {place : Place} {body : Body} (h : ofJson? place json = some body) :
    body.DecodesFrom json := by
  rw [ofJson?] at h
  simp only [Option.bind_eq_bind, Option.bind_eq_some_iff] at h
  rcases h with ⟨⟨tag, data⟩, htagged, kind, hkind, h⟩
  -- Each kind asks for its own parts, and there is nothing else that is read.
  split at h
  · next solid hparts =>
      rcases Option.map_eq_some_iff.mp h with ⟨p, hp, rfl⟩
      exact ⟨_, required?_of_parts? hparts, hp⟩
  · next operator items hlt hparts =>
      rcases Option.bind_eq_some_iff.mp h with ⟨operator', _, h⟩
      rcases Option.map_eq_some_iff.mp h with ⟨operands, hoperands, rfl⟩
      exact ⟨_, _, required?_of_parts? hparts, hoperands⟩
  · next step child hlt hparts =>
      rcases Option.bind_eq_some_iff.mp h with ⟨t, ht, h⟩
      rcases Option.map_eq_some_iff.mp h with ⟨child', hchild, rfl⟩
      exact ⟨_, _, required?_of_parts? hparts, ht, hchild⟩
  · next color child hlt hparts =>
      rcases Option.bind_eq_some_iff.mp h with ⟨c, hc, h⟩
      rcases Option.map_eq_some_iff.mp h with ⟨child', hchild, rfl⟩
      exact ⟨_, _, required?_of_parts? hparts, hc, hchild⟩
  · exact absurd h (by simp)

theorem depth_node_le {kind : Kind} {parts : List (String × Json)}
    (h : ∀ part ∈ parts.map Prod.snd, part.depth ≤ levels) :
    (node kind parts).depth ≤ levels + 1 :=
  depth_object_le_iff.mpr (List.forall_mem_cons.mpr ⟨Nat.zero_le levels, h⟩)

-- The induction is on the body that is decoded. The decoder itself goes down the value, through
-- parts that come with the reason why it ends; `DecodesFrom` has taken these off already.
mutual

/-- A body that is decoded has finite numbers, and is nested no deeper than what it is decoded
    from may be. -/
theorem finite_of_ofJson? (body : Body) {place : Place} {json : Json} {levels : Nat}
    (hjson : json.Fits levels) (h : ofJson? place json = some body) :
    body.toJson.depth ≤ levels ∧ ∀ x ∈ body.numbers, x.isFinite = true := by
  have hdecodes := decodesFrom_of_ofJson? h
  cases body with
  | primitive solid =>
      rcases hdecodes with ⟨part, hparts, hsolid⟩
      rcases hjson.required? hparts with ⟨n, rfl, hfits⟩
      have hpart := Primitive.finite_of_ofJson? (hfits part List.mem_cons_self) hsolid
      exact ⟨depth_node_le (List.forall_mem_singleton.mpr hpart.1), hpart.2⟩
  | composition operator operands =>
      rcases hdecodes with ⟨part, items, hparts, hoperands⟩
      rcases hjson.required? hparts with ⟨n, rfl, hfits⟩
      -- The list of operands takes up a level, as it does where it is written.
      rcases (hfits _ (List.mem_cons_of_mem _ List.mem_cons_self)).items with ⟨n, rfl, hitems⟩
      have hall := finite_of_ofJsonAll? operands hitems hoperands
      have hlist : (Json.array (toJsonAll operands)).depth ≤ n + 1 := by
        rw [depth]
        exact Nat.succ_le_succ hall.1
      exact ⟨depth_node_le (forall_mem_pair (Nat.zero_le _) hlist), hall.2⟩
  | moved step child =>
      rcases hdecodes with ⟨part, rest, hparts, hstep, hchild⟩
      rcases hjson.required? hparts with ⟨n, rfl, hfits⟩
      rw [List.forall_mem_cons, List.forall_mem_singleton] at hfits
      have hpart := Transformation.finite_of_ofJson? hfits.1 hstep
      have hrest := finite_of_ofJson? child hfits.2 hchild
      exact ⟨depth_node_le (forall_mem_pair hpart.1 hrest.1),
        List.forall_mem_append.mpr ⟨hpart.2, hrest.2⟩⟩
  | colored color child =>
      rcases hdecodes with ⟨part, rest, hparts, hcolor, hchild⟩
      rcases hjson.required? hparts with ⟨n, rfl, hfits⟩
      rw [List.forall_mem_cons, List.forall_mem_singleton] at hfits
      have hpart := Color.finite_of_ofJson? hfits.1 hcolor
      have hrest := finite_of_ofJson? child hfits.2 hchild
      exact ⟨depth_node_le (forall_mem_pair hpart.1 hrest.1),
        List.forall_mem_append.mpr ⟨hpart.2, hrest.2⟩⟩

theorem finite_of_ofJsonAll? (bodies : List Body) {items : List Json} {levels : Nat}
    (hitems : ∀ item ∈ items, item.Fits levels) (h : ofJsonAll? items = some bodies) :
    itemsDepth (toJsonAll bodies) ≤ levels ∧ ∀ x ∈ numbersOfAll bodies, x.isFinite = true := by
  -- The two lists are read side by side, and neither ends before the other.
  cases bodies with
  | nil => exact ⟨Nat.zero_le levels, List.forall_mem_nil _⟩
  | cons body rest =>
      cases items with
      | nil =>
          rw [ofJsonAll?] at h
          exact absurd h (by simp)
      | cons item items =>
          rw [ofJsonAll?_cons, Option.bind_eq_some_iff] at h
          rcases h with ⟨body', hbody, h⟩
          rcases Option.map_eq_some_iff.mp h with ⟨rest', hrest, heq⟩
          rcases List.cons.inj heq with ⟨hbody', hrest'⟩
          rw [hbody'] at hbody
          rw [hrest'] at hrest
          rw [List.forall_mem_cons] at hitems
          have hfirst := finite_of_ofJson? body hitems.1 hbody
          have hothers := finite_of_ofJsonAll? rest hitems.2 hrest
          exact ⟨Nat.max_le.mpr ⟨hfirst.1, hothers.1⟩,
            List.forall_mem_append.mpr ⟨hfirst.2, hothers.2⟩⟩

end

/-- A body that was read is read from its own text, and is what it was in every bit, provided that
    its numbers are read as they are written when they are finite. They are: every number of a body
    that was read is. And the text is nested no deeper than may be, even if the text that was read
    came close to the limit. It need not have been written in any particular way: keys may come in
    any order, and what may be left out may be missing. -/
theorem ofText?_toText_of_ofText? {text : String} {body : Body} (h : ofText? text = some body) :
    (∀ x ∈ body.numbers, x.isFinite = true) ∧ body.toJson.depth ≤ maxDepth ∧
      ((∀ x ∈ body.numbers, x.isFinite = true → readBack? x = some x) →
        ofText? body.toText = some body) := by
  rcases Option.bind_eq_some_iff.mp h with ⟨json, hparse, hdecode⟩
  have hskim := (Option.filter_eq_some_iff.mp hparse).1
  have hfinite := finite_of_ofJson? body (fits_of_skim? hskim) hdecode
  refine ⟨hfinite.2, hfinite.1, fun hread => (ofText?_toText_iff body body).mpr ⟨hfinite.1, ?_⟩⟩
  exact (carried_matches_self_iff body).mpr fun x hx => hread x hx (hfinite.2 x hx)

/-- A text that says a body in other words than its own: fields in another order, one that means
    nothing and one that is left out, a key with an escape, lists for a color and a pole and for a
    sphere, and counts for measures. -/
def freeText : String :=
  "\x7b\"child\":\x7b\"transform\":\x7b\"pole\":[0,0,1],\"type\":\"Rotate\"\x7d," ++
  "\"child\":\x7b\"primitive\":[\"Sphere\",2],\"\\u0074ype\":\"Primitive\"\x7d," ++
  "\"type\":\"Transform\"\x7d,\"note\":[],\"rgba\":[1,0,0,1],\"type\":\"Color\"\x7d"

/-- A text that no writer has made is read, and the body that is read comes back from its own text.
    Its counts have become numbers with a point by then. -/
theorem ofText?_toText_of_freeText :
    ∃ body, ofText? freeText = some body ∧ body.numbers = [1, 0, 0, 1, 0, 0, 1, 2] ∧
      ofText? body.toText = some body := by
  have hfree : (ofText? freeText).map numbers = some [1, 0, 0, 1, 0, 0, 1, 2] := by
    decide +kernel
  rcases Option.map_eq_some_iff.mp hfree with ⟨body, hbody, hnumbers⟩
  have hread : AllReadBack body.numbers := by
    rw [hnumbers]
    decide +kernel
  exact ⟨body, hbody, hnumbers, (ofText?_toText_of_ofText? hbody).2.2 fun x hx _ => hread x hx⟩

end Body

end SolidModel
