import SolidModel.Body.Json
import SolidModel.Proofs.Body.Carried
import SolidModel.Proofs.Json.Decode

/-!
# Decoding Written Bodies

What the decoders of bodies and of their parts make of an echo.

An echo differs from what was written in numbers only. So every decoder gives back what was written,
up to its numbers, with each number as it is read on its own; no part of a body is computed from a
number, and none makes up for a number that cannot be read. The one loss is that of an angle which
is written as null. Each statement here is therefore an equivalence with `Matches`, and the one for
a whole is put together from those for its parts. That a body is read as what it was is the case of
it where the body that is read is the body that was written.

The decoder of a body looks at the kind of a node and at its parts at once, which are paired with
what makes the recursion end. For a node that was written, both are known. What is left of the
decoder is said once per kind, before the induction.

## Main definitions

* `Angle.numbers`, `Rotation.numbers`, `Transformation.numbers`: The numbers of a movement.
* `Frustum.numbers`, `Primitive.numbers`, `Body.numbers`: The numbers of a solid and of a body.

## Theorems

* `Vec3.ofJson?_echo_iff`, `Color.ofJson?_echo_iff`, `Rotation.ofJson?_echo_iff`: Records.
* `Primitive.ofJson?_echo_iff`, `Transformation.ofJson?_echo_iff`: Tagged values.
* `Body.ofJson?_echo_iff`: What a body is decoded as.
* `Body.carried_matches_self_iff`: When a body is the same as what is decoded.
* `Body.ofJson?_echo`: A body is decoded as what it was if and only if its numbers are.
-/

namespace SolidModel

open Json

/-! ## Numbers -/

/-- The numbers of an angle. -/
def Angle.numbers : Angle → List Float
  | .single degrees => [degrees]
  | .euler degrees => degrees.toList

/-- The numbers of a rotation, those of its angle first. -/
def Rotation.numbers (r : Rotation) : List Float :=
  r.angle.elim [] Angle.numbers ++ r.pole.elim [] Vec3.toList

/-- The numbers of a transformation. -/
def Transformation.numbers : Transformation → List Float
  | .translate offset => offset.toList
  | .rotate rotation => rotation.numbers
  | .scale factor => factor.toList

/-- The numbers of a frustum. -/
def Frustum.numbers (f : Frustum) : List Float := [f.bottomDiameter, f.topDiameter, f.height]

/-- The numbers of a primitive. -/
def Primitive.numbers : Primitive → List Float
  | .frustum f => f.numbers
  | .sphere diameter => [diameter]

namespace Body

mutual

/-- The numbers of a body, from left to right. -/
def numbers : Body → List Float
  | .primitive solid => solid.numbers
  | .composition _ operands => numbersOfAll operands
  | .moved step child => step.numbers ++ numbers child
  | .colored color child => color.toList ++ numbers child

/-- The numbers of several bodies. -/
def numbersOfAll : List Body → List Float
  | [] => []
  | body :: rest => numbers body ++ numbersOfAll rest

end

end Body

/-! ## Parts of a body -/

theorem Vec3.matches_iff_forall₂ {r : Float → Float → Prop} {v w : Vec3} :
    v.Matches r w ↔ List.Forall₂ r v.toList w.toList := by
  simp [Matches, toList]

theorem Color.matches_iff_forall₂ {r : Float → Float → Prop} {c d : Color} :
    c.Matches r d ↔ List.Forall₂ r c.toList d.toList := by
  simp [Matches, toList]

theorem Vec3.ofList?_eq_some_iff {xs : List Float} {v : Vec3} :
    ofList? xs = some v ↔ xs = v.toList := by
  constructor
  · intro h
    unfold ofList? at h
    split at h
    · rw [← Option.some.inj h]
      rfl
    · exact absurd h (by simp)
  · rintro rfl
    rfl

/-- A vector is read from either form number by number. -/
theorem Vec3.ofJson?_echo_iff (form : Form) (v w : Vec3) :
    ofJson? form (v.toJson form).echo = some w ↔ v.Matches ReadsAs w := by
  have hnodup : componentNames.Nodup := by decide
  have hfloats : ofJson? form (v.toJson form).echo =
      (floats? ((v.toList.map Json.number).map fun value => some value.echo)).bind ofList? := by
    cases form with
    | list => rfl
    | record =>
        have htoJson : v.toJson .record =
            .object (componentNames.zip (v.toList.map .number)) := rfl
        rw [ofJson?, htoJson]
        simp only [record?_echo hnodup (v.toList.map .number) rfl, Option.bind_eq_bind,
          Option.bind_some]
  rw [hfloats, floats?_echo, Option.bind_eq_some_iff]
  simp only [ofList?_eq_some_iff, exists_eq_right, mapM_readBack?_iff, matches_iff_forall₂]

theorem Color.ofJson?_echo_iff (c d : Color) :
    ofJson? c.toJson.echo = some d ↔ c.Matches ReadsAs d := by
  have hnodup : ["r", "g", "b", "a"].Nodup := by decide
  have htoJson : c.toJson = .object (["r", "g", "b", "a"].zip (c.toList.map .number)) := rfl
  rw [ofJson?, htoJson, record?_echo hnodup (c.toList.map .number) rfl]
  simp only [Option.bind_eq_bind, Option.bind_some, floats?_echo]
  rw [matches_iff_forall₂, ← mapM_readBack?_iff, Option.bind_eq_some_iff]
  constructor
  · rintro ⟨channels, hchannels, hd⟩
    split at hd
    · rw [hchannels, ← Option.some.inj hd]
      rfl
    · exact absurd hd (by simp)
  · exact fun h => ⟨_, h, rfl⟩

theorem Operator.ofJson?_echo (place : Place) (operator : Operator) :
    ofJson? place operator.toJson.echo = some operator := by
  cases operator <;> rfl

theorem Frustum.segments?_echo (segments : Option UInt32) :
    optional? segments? (some (Json.ofOption (fun n => .natural n.toNat) segments).echo) =
      some segments := by
  cases segments with
  | none => rfl
  | some n =>
      have hsize : n.toNat < UInt32.size := n.toNat_lt
      rw [Json.ofOption, echo_natural (Nat.lt_trans hsize (by decide))]
      simp only [optional?, segments?, naturalBelow?, hsize, ↓reduceIte, Option.map_some,
        UInt32.ofNat_toNat]

theorem Frustum.ofJson?_echo_iff (f g : Frustum) :
    ofJson? f.toJson.echo = some g ↔ f.Matches ReadsAs g := by
  have hnodup : fieldNames.Nodup := by decide
  have htoJson : f.toJson = .object (fieldNames.zip (f.toFields.map Prod.snd)) := rfl
  rw [ofJson?, htoJson, record?_echo hnodup (f.toFields.map Prod.snd) rfl, Option.bind_some]
  simp only [toFields, List.map_cons, List.map_nil, ofFields?, Frustum.segments?_echo,
    Option.bind_eq_bind, Option.bind_some, float?_echo_number, bool?_echo_bool, Option.pure_def,
    Option.bind_eq_some_iff, Option.some.injEq]
  constructor
  · rintro ⟨b, hb, t, ht, h, hh, rfl⟩
    exact ⟨hb, ht, hh, rfl, rfl⟩
  · rintro ⟨hb, ht, hh, hcentered, hsegments⟩
    exact ⟨_, hb, _, ht, _, hh, by rw [hcentered, hsegments]⟩

theorem Primitive.diameter?_echo (x : Float) :
    ((Json.object (sphereFields x)).echo.record? sphereNames).bind diameter? = readBack? x := by
  have hnodup : sphereNames.Nodup := by decide
  have htoJson : sphereFields x = sphereNames.zip [.number x] := rfl
  rw [htoJson, record?_echo hnodup _ rfl, Option.bind_some]
  exact float?_echo_number x

theorem Primitive.ofJson?_echo_iff (place : Place) (p q : Primitive) :
    ofJson? place p.toJson.echo = some q ↔ p.Matches ReadsAs q := by
  cases p with
  | frustum f =>
      have htag : tagName ∉ Frustum.fieldNames := by decide
      have htagged : (toJson (.frustum f)).echo.tagged? =
          some (.string "Frustum", f.toJson.echo) :=
        tagged?_echo htag "Frustum" (f.toFields.map Prod.snd)
      rw [ofJson?, bind_tagged? htagged rfl, Option.map_eq_some_iff]
      cases q <;> simp [Frustum.ofJson?_echo_iff, Matches]
  | sphere x =>
      have htag : tagName ∉ sphereNames := by decide
      have htagged : (toJson (.sphere x)).echo.tagged? =
          some (.string "Sphere", (Json.object (sphereFields x)).echo) :=
        tagged?_echo htag "Sphere" [.number x]
      rw [ofJson?, bind_tagged? htagged rfl, diameter?_echo, Option.map_eq_some_iff]
      cases q <;> simp [Matches, ReadsAs]

/-! ## Movements -/

theorem Vec3.toJson_echo_ne_null (form : Form) (v : Vec3) : (v.toJson form).echo ≠ .null := by
  cases form <;> exact nofun

/-- A number is not taken for a vector. -/
theorem Vec3.ofJson?_echo_number (form : Form) (x : Float) :
    ofJson? form (Json.number x).echo = none := by
  cases form with
  | list => rw [ofJson?, array?_echo_number]; rfl
  | record => rw [ofJson?, record?_echo_number]; rfl

/-- An angle is written as null exactly if it is a single number that is not finite. -/
theorem Angle.toJson_echo_eq_null_iff (form : Vec3.Form) (a : Angle) :
    (a.toJson form).echo = .null ↔ a.isWritten = false := by
  cases a with
  | single x => exact echo_number_eq_null_iff x
  | euler v => exact iff_of_false (v.toJson_echo_ne_null form) nofun

theorem Angle.ofJson?_echo_iff (form : Vec3.Form) (a b : Angle) :
    ofJson? form (a.toJson form).echo = some b ↔ a.Matches ReadsAs b := by
  cases a with
  | single x =>
      rw [toJson, ofJson?, float?_echo_number, Vec3.ofJson?_echo_number]
      cases h : readBack? x <;> cases b <;> simp [Matches, ReadsAs, h]
  | euler v =>
      have hfloat : (v.toJson form).echo.float? = none := by cases form <;> rfl
      rw [toJson, ofJson?, hfloat]
      simp only [Option.map_eq_some_iff, Vec3.ofJson?_echo_iff]
      cases b <;> simp [Matches]

/-- A rotation is read without its angle if that was written as null. -/
theorem Rotation.ofJson?_echo_iff (form : Vec3.Form) (r s : Rotation) :
    ofJson? form (r.toJson form).echo = some s ↔ r.carried.Matches ReadsAs s := by
  have hnodup : fieldNames.Nodup := by decide
  have htoJson : r.toJson form = .object (fieldNames.zip ((r.toFields form).map Prod.snd)) := rfl
  have hangle_iff := optional?_echo_iff (Angle.toJson_echo_eq_null_iff form)
    (Angle.ofJson?_echo_iff form) r.angle s.angle
  -- A pole is never written as null, so that there is nothing to filter.
  have hfilter : r.pole.filter (fun _ => true) = r.pole := by cases r.pole <;> rfl
  have hnull : ∀ v : Vec3, (v.toJson form).echo = .null ↔ true = false := fun v =>
    iff_of_false (v.toJson_echo_ne_null form) (by decide)
  have hpole_iff : optional? (Vec3.ofJson? form)
      (some (Json.ofOption (Vec3.toJson form) r.pole).echo) = some s.pole ↔
        Option.Rel (Vec3.Matches ReadsAs) (r.pole.filter fun _ => true) s.pole :=
    optional?_echo_iff hnull (Vec3.ofJson?_echo_iff form) r.pole s.pole
  rw [hfilter] at hpole_iff
  rw [ofJson?, htoJson, record?_echo hnodup _ rfl, Option.bind_some, Matches, carried, ← hangle_iff,
    ← hpole_iff]
  simp only [toFields, List.map_cons, List.map_nil, ofFields?, Option.bind_eq_bind,
    Option.pure_def, Option.bind_eq_some_iff, Option.some.injEq]
  constructor
  · rintro ⟨angle, hangle, pole, hpole, rfl⟩
    exact ⟨hangle, hpole⟩
  · rintro ⟨hangle, hpole⟩
    exact ⟨_, hangle, _, hpole, rfl⟩

theorem Transformation.vector?_echo (form : Vec3.Form) (name : String) (v : Vec3) :
    vector? form name (Json.object [(name, v.toJson form)]).echo =
      Vec3.ofJson? form (v.toJson form).echo := by
  have hnodup : [name].Nodup := List.nodup_cons.mpr ⟨List.not_mem_nil, List.nodup_nil⟩
  have hrecord := record?_echo hnodup [v.toJson form] rfl
  rw [List.zip_cons_cons, List.zip_nil_left] at hrecord
  rw [vector?, hrecord]
  rfl

/-- A transformation is read without its angle if that was written as null. -/
theorem Transformation.ofJson?_echo_iff (form : Vec3.Form) (place : Place)
    (t u : Transformation) :
    ofJson? form place (t.toJson form).echo = some u ↔ t.carried.Matches ReadsAs u := by
  -- The tag stands among the fields, and none of them has its name.
  cases t with
  | translate v =>
      have htag : tagName ∉ ["offset"] := by decide
      have htagged : (toJson form (.translate v)).echo.tagged? =
          some (.string "Translate", (Json.object [("offset", v.toJson form)]).echo) :=
        tagged?_echo htag "Translate" [v.toJson form]
      rw [ofJson?, bind_tagged? htagged rfl, vector?_echo, Option.map_eq_some_iff]
      cases u <;> simp [Vec3.ofJson?_echo_iff, carried, Matches]
  | rotate r =>
      have htag : tagName ∉ Rotation.fieldNames := by decide
      have htagged : (toJson form (.rotate r)).echo.tagged? =
          some (.string "Rotate", (r.toJson form).echo) :=
        tagged?_echo htag "Rotate" ((r.toFields form).map Prod.snd)
      rw [ofJson?, bind_tagged? htagged rfl, Option.map_eq_some_iff]
      cases u <;> simp [Rotation.ofJson?_echo_iff, carried, Matches]
  | scale v =>
      have htag : tagName ∉ ["factor"] := by decide
      have htagged : (toJson form (.scale v)).echo.tagged? =
          some (.string "Scale", (Json.object [("factor", v.toJson form)]).echo) :=
        tagged?_echo htag "Scale" [v.toJson form]
      rw [ofJson?, bind_tagged? htagged rfl, vector?_echo, Option.map_eq_some_iff]
      cases u <;> simp [Vec3.ofJson?_echo_iff, carried, Matches]

/-! ## Bodies -/

namespace Body

section Nodes

variable (kind : Kind) (values : List Json) (hlength : kind.partNames.length = values.length)

theorem tagName_notMem_partNames : tagName ∉ kind.partNames := by cases kind <;> decide

theorem nodup_partNames : kind.partNames.Nodup := by cases kind <;> decide

theorem variant?_name (place : Place) :
    variant? place Kind.table (.string kind.name) = some kind := by
  cases kind <;> rfl

/-- The kind of a node shows in its tag. -/
theorem tagged?_node :
    (node kind (kind.partNames.zip values)).echo.tagged? =
      some (.string kind.name, (Json.object (kind.partNames.zip values)).echo) :=
  tagged?_echo (tagName_notMem_partNames kind) kind.name values

include hlength in
/-- The parts of a node are found beside its tag. -/
theorem required?_node :
    required? kind.partNames (node kind (kind.partNames.zip values)).echo =
      some (values.map echo) :=
  required?_echo (tagName_notMem_partNames kind) (nodup_partNames kind) kind.name values hlength

end Nodes

theorem ofJson?_primitive (place : Place) (solid : Json) :
    ofJson? place (node .primitive [("primitive", solid)]).echo =
      (Primitive.ofJson? .held solid.echo).map .primitive := by
  have htagged : (node .primitive [("primitive", solid)]).echo.tagged? = _ :=
    tagged?_node .primitive [solid]
  have hrequired : required? Kind.primitive.partNames
      (node .primitive [("primitive", solid)]).echo = some [solid.echo] :=
    required?_node .primitive [solid] rfl
  rw [ofJson?, htagged]
  simp only [Option.bind_eq_bind, Option.bind_some, variant?_name, parts?_eq_some hrequired]
  rfl

theorem ofJson?_composition (place : Place) (operator : Json) (operands : List Json) :
    ofJson? place (node .composition [("operator", operator), ("operands", .array operands)]).echo =
      (Operator.ofJson? .held operator.echo).bind fun operator =>
        (ofJsonAll? (echoItems operands)).map (.composition operator) := by
  have htagged : (node .composition
      [("operator", operator), ("operands", .array operands)]).echo.tagged? = _ :=
    tagged?_node .composition [operator, .array operands]
  have hrequired : required? Kind.composition.partNames (node .composition
      [("operator", operator), ("operands", .array operands)]).echo =
        some [operator.echo, .array (echoItems operands)] :=
    required?_node .composition [operator, .array operands] rfl
  rw [ofJson?, htagged]
  simp only [Option.bind_eq_bind, Option.bind_some, variant?_name, parts?_eq_some hrequired]
  rfl

theorem ofJson?_moved (place : Place) (step child : Json) :
    ofJson? place (node .moved [("transform", step), ("child", child)]).echo =
      (Transformation.ofJson? .record .held step.echo).bind fun step =>
        (ofJson? .held child.echo).map (.moved step) := by
  have htagged : (node .moved [("transform", step), ("child", child)]).echo.tagged? = _ :=
    tagged?_node .moved [step, child]
  have hrequired : required? Kind.moved.partNames
      (node .moved [("transform", step), ("child", child)]).echo = some [step.echo, child.echo] :=
    required?_node .moved [step, child] rfl
  rw [ofJson?, htagged]
  simp only [Option.bind_eq_bind, Option.bind_some, variant?_name, parts?_eq_some hrequired]
  rfl

theorem ofJson?_colored (place : Place) (color child : Json) :
    ofJson? place (node .colored [("rgba", color), ("child", child)]).echo =
      (Color.ofJson? color.echo).bind fun color =>
        (ofJson? .held child.echo).map (.colored color) := by
  have htagged : (node .colored [("rgba", color), ("child", child)]).echo.tagged? = _ :=
    tagged?_node .colored [color, child]
  have hrequired : required? Kind.colored.partNames
      (node .colored [("rgba", color), ("child", child)]).echo = some [color.echo, child.echo] :=
    required?_node .colored [color, child] rfl
  rw [ofJson?, htagged]
  simp only [Option.bind_eq_bind, Option.bind_some, variant?_name, parts?_eq_some hrequired]
  rfl

theorem ofJsonAll?_cons (json : Json) (rest : List Json) :
    ofJsonAll? (json :: rest) = (ofJson? .held json).bind fun body =>
      (ofJsonAll? rest).map (body :: ·) := by
  rw [ofJsonAll?]
  cases ofJson? .held json with
  | none => rfl
  | some body => cases ofJsonAll? rest <;> rfl

-- The induction is on the body that was written. Its node is known, and so are the parts that the
-- decoder finds; what is read there may be any body, and has to be of the same kind.
mutual

/-- A body is read from what was written of it as a body that is the same but for what null
    hides, with its numbers as they are read. -/
theorem ofJson?_echo_iff (body other : Body) (place : Place) :
    ofJson? place body.toJson.echo = some other ↔ body.carried.Matches ReadsAs other := by
  cases body with
  | primitive solid =>
      rw [toJson, ofJson?_primitive, Option.map_eq_some_iff]
      cases other <;> simp [Primitive.ofJson?_echo_iff, carried, Matches]
  | composition operator operands =>
      rw [toJson, ofJson?_composition, Operator.ofJson?_echo, Option.bind_some,
        Option.map_eq_some_iff]
      cases other <;> simp [ofJsonAll?_echo_iff operands, carried, Matches, and_comm]
  | moved step child =>
      rw [toJson, ofJson?_moved]
      simp only [Option.bind_eq_some_iff, Option.map_eq_some_iff, Transformation.ofJson?_echo_iff,
        ofJson?_echo_iff child]
      cases other <;> simp [carried, Matches]
  | colored color child =>
      rw [toJson, ofJson?_colored]
      simp only [Option.bind_eq_some_iff, Option.map_eq_some_iff, Color.ofJson?_echo_iff,
        ofJson?_echo_iff child]
      cases other <;> simp [carried, Matches]

theorem ofJsonAll?_echo_iff (bodies others : List Body) :
    ofJsonAll? (echoItems (toJsonAll bodies)) = some others ↔
      AllMatch ReadsAs (carriedAll bodies) others := by
  cases bodies with
  | nil =>
      rw [toJsonAll, echoItems, ofJsonAll?]
      cases others <;> simp [carriedAll, AllMatch]
  | cons body rest =>
      rw [toJsonAll, echoItems, ofJsonAll?_cons]
      simp only [Option.bind_eq_some_iff, Option.map_eq_some_iff, ofJson?_echo_iff body,
        ofJsonAll?_echo_iff rest]
      cases others <;> simp [carriedAll, AllMatch]

end

end Body

/-! ## Nothing changed -/

theorem Vec3.matches_self_iff {v : Vec3} : v.Matches ReadsAs v ↔ AllReadBack v.toList := by
  rw [matches_iff_forall₂, List.forall₂_same]
  rfl

theorem Color.matches_self_iff {c : Color} : c.Matches ReadsAs c ↔ AllReadBack c.toList := by
  rw [matches_iff_forall₂, List.forall₂_same]
  rfl

theorem Primitive.matches_self_iff {p : Primitive} :
    p.Matches ReadsAs p ↔ AllReadBack p.numbers := by
  cases p with
  | frustum f =>
      rw [numbers, Frustum.numbers, allReadBack_cons, allReadBack_cons, allReadBack_cons]
      exact ⟨fun h => ⟨h.bottomDiameter, h.topDiameter, h.height, allReadBack_nil⟩,
        fun h => ⟨h.1, h.2.1, h.2.2.1, rfl, rfl⟩⟩
  | sphere x =>
      rw [numbers, allReadBack_cons]
      exact (and_iff_left allReadBack_nil).symm

theorem Angle.matches_self_iff {a : Angle} : a.Matches ReadsAs a ↔ AllReadBack a.numbers := by
  cases a with
  | single x =>
      rw [numbers, allReadBack_cons]
      exact (and_iff_left allReadBack_nil).symm
  | euler v => exact Vec3.matches_self_iff

/-- An angle whose numbers are read back is written as something. -/
theorem Angle.isWritten_of_allReadBack {a : Angle} (h : AllReadBack a.numbers) :
    a.isWritten = true := by
  cases a with
  | single x => exact isFinite_of_readBack? (allReadBack_cons.mp h).1
  | euler v => rfl

theorem Rotation.carried_matches_self_iff {r : Rotation} :
    r.carried.Matches ReadsAs r ↔ AllReadBack r.numbers := by
  have hpole : Option.Rel (Vec3.Matches ReadsAs) r.pole r.pole ↔
      AllReadBack (r.pole.elim [] Vec3.toList) := by
    cases r.pole with
    | none => exact iff_of_true .none allReadBack_nil
    | some v => exact ⟨fun | .some h => Vec3.matches_self_iff.mp h,
        fun h => .some (Vec3.matches_self_iff.mpr h)⟩
  -- An angle that is written as null is not carried, and nothing else takes its place.
  have hangle : Option.Rel (Angle.Matches ReadsAs) (r.angle.filter Angle.isWritten) r.angle ↔
      AllReadBack (r.angle.elim [] Angle.numbers) := by
    cases r.angle with
    | none => exact iff_of_true .none allReadBack_nil
    | some a =>
        rw [Option.elim_some]
        cases hwritten : a.isWritten with
        | true =>
            rw [Option.filter_some_pos hwritten]
            exact ⟨fun | .some h => Angle.matches_self_iff.mp h,
              fun h => .some (Angle.matches_self_iff.mpr h)⟩
        | false =>
            rw [Option.filter_some_neg (by simp [hwritten])]
            refine iff_of_false nofun fun h => ?_
            exact absurd (Angle.isWritten_of_allReadBack h) (by simp [hwritten])
  rw [numbers, allReadBack_append, ← hangle, ← hpole]
  rfl

theorem Transformation.carried_matches_self_iff {t : Transformation} :
    t.carried.Matches ReadsAs t ↔ AllReadBack t.numbers := by
  cases t with
  | translate v => exact Vec3.matches_self_iff
  | rotate r => exact Rotation.carried_matches_self_iff
  | scale v => exact Vec3.matches_self_iff

namespace Body

mutual

/-- A body is the same as what is read if and only if its numbers are: an angle that is lost is
    one whose number is not read back. -/
theorem carried_matches_self_iff (body : Body) :
    body.carried.Matches ReadsAs body ↔ AllReadBack body.numbers := by
  cases body with
  | primitive solid => exact Primitive.matches_self_iff
  | composition operator operands =>
      rw [carried, Matches, numbers, allMatch_carriedAll_self_iff operands]
      exact and_iff_right rfl
  | moved step child =>
      rw [carried, Matches, numbers, allReadBack_append,
        Transformation.carried_matches_self_iff, carried_matches_self_iff child]
  | colored color child =>
      rw [carried, Matches, numbers, allReadBack_append, Color.matches_self_iff,
        carried_matches_self_iff child]

theorem allMatch_carriedAll_self_iff (bodies : List Body) :
    AllMatch ReadsAs (carriedAll bodies) bodies ↔ AllReadBack (numbersOfAll bodies) := by
  cases bodies with
  | nil => exact iff_of_true trivial allReadBack_nil
  | cons body rest =>
      rw [carriedAll, AllMatch, numbersOfAll, allReadBack_append, carried_matches_self_iff body,
        allMatch_carriedAll_self_iff rest]

end

/-- A body is read as what it was if and only if its numbers are. -/
theorem ofJson?_echo (body : Body) (place : Place) :
    ofJson? place body.toJson.echo = some body ↔ AllReadBack body.numbers :=
  (ofJson?_echo_iff body body place).trans (carried_matches_self_iff body)

end Body

end SolidModel
