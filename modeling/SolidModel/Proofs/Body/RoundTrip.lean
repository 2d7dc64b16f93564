import SolidModel.Proofs.Body.Echo
import SolidModel.Proofs.Json.Lexing

/-!
# Bodies Through Text and Back

When a body that is written as text is read from it as the same body.

Two things can come between. A reader gives up on what is nested too deep, and a number may be read
as a neighbour of the one that was written. Nothing else can: not the order of operands, which is
that of the list; not what is absent, which is written as null and read from it; not the two forms
of an angle, since no number is taken for a record. So a body comes back if it is not too deep and
its numbers come back one by one, and this is also necessary.

The reader refuses a text for any part of it that it could not read, even one that means nothing.
Therefore readability is followed through the parts first. It asks for no more than decoding does:
what is decoded as anything has nothing unreadable in it.

## Theorems

* `Body.isReadable_of_matches`: A body that is read as some body is readable throughout.
* `Body.isReadable_echo`: A body is readable throughout if its numbers are.
* `Body.ofText?_toText_iff`: What is read from the text of a body.
* `Body.ofText?_toText_eq_some_iff`: When a body is read from its own text.
-/

namespace SolidModel

open Json

/-! ## Readable parts -/

theorem forall_mem_pair {α : Type} {p : α → Prop} {a b : α} (ha : p a) (hb : p b) :
    ∀ x ∈ [a, b], p x :=
  List.forall_mem_cons.mpr ⟨ha, List.forall_mem_singleton.mpr hb⟩

theorem Vec3.isReadable_echo (form : Form) {v w : Vec3} (h : v.Matches ReadsAs w) :
    (v.toJson form).echo.isReadable = true := by
  rw [matches_iff_forall₂] at h
  cases form with
  | list => exact isReadable_array (isReadable_numbers h)
  | record => exact isReadable_object (isReadable_numbers h)

theorem Color.isReadable_echo {c d : Color} (h : c.Matches ReadsAs d) :
    c.toJson.echo.isReadable = true :=
  isReadable_object (isReadable_numbers (matches_iff_forall₂.mp h))

theorem Frustum.isReadable_segments (segments : Option UInt32) :
    (Json.ofOption (fun n => .natural n.toNat) segments).echo.isReadable = true := by
  refine isReadable_ofOption fun n _ => ?_
  rw [echo_natural (Nat.lt_trans n.toNat_lt (by decide))]
  rfl

theorem Frustum.isReadable_fields {f g : Frustum} (h : f.Matches ReadsAs g) :
    ∀ value ∈ f.toFields.map Prod.snd, value.echo.isReadable = true :=
  List.forall_mem_cons.mpr ⟨h.bottomDiameter.isReadable, List.forall_mem_cons.mpr
    ⟨h.topDiameter.isReadable, List.forall_mem_cons.mpr
      ⟨h.height.isReadable, forall_mem_pair rfl (isReadable_segments _)⟩⟩⟩

theorem Primitive.isReadable_echo {p q : Primitive} (h : p.Matches ReadsAs q) :
    p.toJson.echo.isReadable = true := by
  cases p with
  | frustum f =>
      cases q with
      | frustum g =>
          exact isReadable_object (List.forall_mem_cons.mpr ⟨rfl, Frustum.isReadable_fields h⟩)
      | sphere y => exact h.elim
  | sphere x =>
      cases q with
      | frustum g => exact h.elim
      | sphere y => exact isReadable_object (forall_mem_pair rfl (ReadsAs.isReadable h))

theorem Angle.isReadable_echo (form : Vec3.Form) {a b : Angle} (h : a.Matches ReadsAs b) :
    (a.toJson form).echo.isReadable = true := by
  cases a with
  | single x =>
      cases b with
      | single y => exact ReadsAs.isReadable h
      | euler w => exact h.elim
  | euler v =>
      cases b with
      | single y => exact h.elim
      | euler w => exact Vec3.isReadable_echo form h

theorem Rotation.isReadable_fields (form : Vec3.Form) {r s : Rotation}
    (h : r.carried.Matches ReadsAs s) :
    ∀ value ∈ (r.toFields form).map Prod.snd, value.echo.isReadable = true := by
  rcases s with ⟨angle, pole⟩
  rcases h with ⟨hangle, hpole⟩
  refine forall_mem_pair (isReadable_ofOption fun a ha => ?_) (isReadable_ofOption fun v hv => ?_)
  · rw [carried, ha] at hangle
    cases hwritten : a.isWritten with
    | false =>
        -- An angle that is lost is null, which is readable too.
        rw [(a.toJson_echo_eq_null_iff form).mpr hwritten]
        rfl
    | true =>
        rw [Option.filter_some_pos hwritten] at hangle
        cases hangle with
        | some hmatch => exact Angle.isReadable_echo form hmatch
  · rw [carried, hv] at hpole
    cases hpole with
    | some hmatch => exact Vec3.isReadable_echo form hmatch

theorem Transformation.isReadable_echo (form : Vec3.Form) {t u : Transformation}
    (h : t.carried.Matches ReadsAs u) : (t.toJson form).echo.isReadable = true := by
  cases t with
  | translate v =>
      cases u with
      | translate w => exact isReadable_object (forall_mem_pair rfl (Vec3.isReadable_echo form h))
      | _ => exact h.elim
  | rotate r =>
      cases u with
      | rotate s =>
          exact isReadable_object
            (List.forall_mem_cons.mpr ⟨rfl, Rotation.isReadable_fields form h⟩)
      | _ => exact h.elim
  | scale v =>
      cases u with
      | scale w => exact isReadable_object (forall_mem_pair rfl (Vec3.isReadable_echo form h))
      | _ => exact h.elim

namespace Body

/-- A node is readable if its parts are. -/
theorem isReadable_node {kind : Kind} {parts : List (String × Json)}
    (h : ∀ part ∈ parts.map Prod.snd, part.echo.isReadable = true) :
    (node kind parts).echo.isReadable = true :=
  isReadable_object (List.forall_mem_cons.mpr ⟨rfl, h⟩)

mutual

/-- A body that is read as some body is readable throughout. Decoding passes over what it does not
    ask for, and a reader refuses even that if it cannot be read. In the text of a body there is
    nothing that decoding does not ask for. -/
theorem isReadable_of_matches (body : Body) {other : Body}
    (h : body.carried.Matches ReadsAs other) : body.toJson.echo.isReadable = true := by
  -- What matches is of the same kind, and its parts match.
  cases body with
  | primitive solid =>
      cases other with
      | primitive _ =>
          exact isReadable_node (List.forall_mem_singleton.mpr (Primitive.isReadable_echo h))
      | _ => exact h.elim
  | composition operator operands =>
      cases other with
      | composition _ _ =>
          exact isReadable_node (forall_mem_pair rfl (areReadable_of_allMatch operands h.2))
      | _ => exact h.elim
  | moved step child =>
      cases other with
      | moved _ _ =>
          exact isReadable_node (forall_mem_pair
            (Transformation.isReadable_echo .record h.1) (isReadable_of_matches child h.2))
      | _ => exact h.elim
  | colored color child =>
      cases other with
      | colored _ _ =>
          exact isReadable_node (forall_mem_pair
            (Color.isReadable_echo h.1) (isReadable_of_matches child h.2))
      | _ => exact h.elim

theorem areReadable_of_allMatch (bodies : List Body) {others : List Body}
    (h : AllMatch ReadsAs (carriedAll bodies) others) :
    areReadable (echoItems (toJsonAll bodies)) = true := by
  cases bodies with
  | nil => rfl
  | cons body rest =>
      cases others with
      | nil => exact h.elim
      | cons _ _ =>
          rw [toJsonAll, echoItems, areReadable, isReadable_of_matches body h.1,
            areReadable_of_allMatch rest h.2]
          rfl

end

/-- A body whose numbers are read back is readable throughout. -/
theorem isReadable_echo (body : Body) (h : AllReadBack body.numbers) :
    body.toJson.echo.isReadable = true :=
  isReadable_of_matches body ((carried_matches_self_iff body).mpr h)

/-- Whatever is read from the text of a body, which is nothing if the body is nested too deep. It is
    what is carried of the body, with numbers that may be others: those that each number is read
    as. -/
theorem ofText?_toText_iff (body other : Body) :
    ofText? body.toText = some other ↔
      body.toJson.depth ≤ Json.maxDepth ∧ body.carried.Matches ReadsAs other := by
  rw [ofText?, Option.bind_eq_some_iff]
  simp only [toText, parse?_eq_some_iff (skim?_pretty body.toJson)]
  constructor
  · rintro ⟨_, ⟨hle, -, rfl⟩, h⟩
    exact ⟨hle, (ofJson?_echo_iff body other .alone).mp h⟩
  · rintro ⟨hle, h⟩
    exact ⟨_, ⟨hle, isReadable_of_matches body h, rfl⟩, (ofJson?_echo_iff body other .alone).mpr h⟩

/-- A body is read from its own text, and is what it was in every bit, exactly if it is not nested
    too deep and each of its numbers is read as it was written.

    The depth is that of the lists and objects in the text. What is asked of a number is asked of it
    alone, wherever it stands. Nothing is asked of anything else in a body: the order of operands,
    their number, and what is there or absent always come back with it. -/
theorem ofText?_toText_eq_some_iff (body : Body) :
    ofText? body.toText = some body ↔
      body.toJson.depth ≤ Json.maxDepth ∧ AllReadBack body.numbers := by
  have hparse : ofText? body.toText =
      if (body.toJson.echo.cut 0).isReadable then ofJson? .alone (body.toJson.echo.cut 0)
      else none := by
    rw [ofText?, parse?, toText, skim?_pretty, Option.filter_some]
    split <;> rfl
  have hdepth := depth_echo body.toJson
  rw [hparse]
  constructor
  · intro h
    split at h
    · next hreadable =>
        -- Only what is not too deep is still readable when it was cut.
        have hle := depth_le_of_isReadable_cut _ (Nat.zero_le _) hreadable
        rw [Nat.zero_add, hdepth] at hle
        rw [cut_eq_self _ (by omega), ofJson?_echo] at h
        exact ⟨hle, h⟩
    · exact absurd h (by simp)
  · rintro ⟨hle, hnumbers⟩
    rw [cut_eq_self _ (by omega), if_pos (isReadable_echo body hnumbers)]
    exact (ofJson?_echo body .alone).mpr hnumbers

/-- Measures that a person would choose come back: a colored difference of a turned frustum and a
    sphere is the same body after it has been through a text. -/
theorem ofText?_toText_frustum :
    let body : Body := .colored ⟨1, 0.5, 0, 1⟩ (.composition .difference [
      .moved (.rotate ⟨some (.single 45), some ⟨0.1, 0, -1⟩⟩)
        (.primitive (.frustum ⟨15, 12.25, 7.5, true, some 64⟩)),
      .primitive (.sphere 2)])
    body.toJson.depth ≤ Json.maxDepth ∧ AllReadBack body.numbers ∧
      ofText? body.toText = some body := by
  intro body
  have hdepth : body.toJson.depth ≤ Json.maxDepth := by decide
  have hread : AllReadBack body.numbers := by decide +kernel
  exact ⟨hdepth, hread, (ofText?_toText_eq_some_iff body).mpr ⟨hdepth, hread⟩⟩

-- A root may not come back.
example : ¬ AllReadBack (Body.primitive (.sphere (Float.sqrt 14))).numbers := by decide +kernel

end Body

end SolidModel
