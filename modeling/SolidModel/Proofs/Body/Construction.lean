import SolidModel.Connector.Json
import SolidModel.Proofs.Body.Accepted
import SolidModel.Proofs.Vec3.Valid

/-!
# Models Under Construction Through Text and Back

When a movement, a connector or a shape that is written as a text is read from it as the same.

The forms that models under construction are written in differ from those of finished bodies. A
vector is a plain list of numbers. A shape is an object with its kind as the only key, and the four
kinds of shapes have two kinds of measures between them, so that nothing but the key tells a
cylinder from a cone. Neither makes a difference to what comes back: it is what was written, with
every number as it is read on its own.

A vector that is read is put to the same check as one that is made, and a vector that fails the
check would make reading fail as a whole. It never does. The check looks for a length that is no
number, which only a vector with something in it that is not finite can have, and no number of a
text is read as that.

## Main definitions

* `Connector.numbers`, `Shape.numbers`: The numbers of a connector and of a shape.
* `Connector.Matches`, `Shape.Matches`: What is the same up to its numbers.
* `Transformation.vectors`, `Connector.vectors`: The vectors that are checked.

## Theorems

* `Connector.ofJson?_echo_iff`, `Shape.ofJson?_echo_iff`: What is decoded.
* `Connector.ofText?_compact_iff`, `Shape.ofText?_compact_iff`: What is read.
* `Connector.finite_of_ofJson?`: A connector that is decoded is finite.
* `Vec3.checked_of_forall`: Vectors of finite components pass the check.
* `text_restores`: When a text gives back what was written, and that every vector passes the check.
-/

namespace SolidModel

open Json

/-! ## Connectors -/

namespace Connector

/-- The names of the vectors in order. -/
def vectorNames : List String := ["point", "axis", "normal"]

/-- The vectors of a connector in order. -/
def vectors (c : Connector) : List Vec3 := [c.point, c.axis, c.normal]

/-- The numbers of a connector. -/
def numbers (c : Connector) : List Float := c.vectors.flatMap Vec3.toList

/-- The vectors are related one by one. -/
def Matches (r : Float → Float → Prop) (c d : Connector) : Prop :=
  List.Forall₂ (Vec3.Matches r) c.vectors d.vectors

theorem matches_self_iff {c : Connector} : c.Matches ReadsAs c ↔ AllReadBack c.numbers := by
  rw [Matches, List.forall₂_same, numbers, AllReadBack, List.forall_mem_flatMap]
  exact forall₂_congr fun v _ => Vec3.matches_self_iff

/-- A connector is read vector by vector. -/
theorem ofJson?_echo_iff (c d : Connector) :
    ofJson? c.toJson.echo = some d ↔ c.Matches ReadsAs d := by
  have hnodup : vectorNames.Nodup := by decide
  have htoJson : c.toJson = .object (vectorNames.zip (c.vectors.map (Vec3.toJson .list))) := rfl
  have hrecord := record?_echo hnodup (c.vectors.map (Vec3.toJson .list)) rfl
  rw [ofJson?, htoJson]
  change ((Json.object _).echo.record? vectorNames >>= _) = _ ↔ _
  simp only [hrecord, Option.bind_eq_bind, Option.bind_some, List.map_map, List.mapM_map,
    Option.bind_eq_some_iff, Option.mapM_eq_some_iff]
  constructor
  · rintro ⟨vectors, hvectors, hd⟩
    split at hd
    · rw [← Option.some.inj hd]
      exact hvectors.imp fun v w => (Vec3.ofJson?_echo_iff .list v w).mp
    · cases hd
  · exact fun h => ⟨d.vectors, h.imp fun v w => (Vec3.ofJson?_echo_iff .list v w).mpr, rfl⟩

theorem depth_toJson (c : Connector) : c.toJson.depth = 2 := rfl

/-- What is read of a connector. -/
theorem ofText?_compact_iff (c d : Connector) :
    ofText? c.toJson.compact = some d ↔ c.Matches ReadsAs d := by
  have hdepth : c.toJson.depth ≤ maxDepth := by
    rw [depth_toJson]
    decide
  rw [ofText?, skim?_compact_eq hdepth, Option.bind_some, ofJson?_echo_iff]

/-- A connector that is decoded has finite numbers. -/
theorem finite_of_ofJson? {json : Json} {levels : Nat} {c : Connector} (hjson : json.Fits levels)
    (h : ofJson? json = some c) : ∀ v ∈ c.vectors, ∀ x ∈ v.toList, x.isFinite = true := by
  rcases Option.bind_eq_some_iff.mp h with ⟨fields, hfields, h⟩
  rcases Option.bind_eq_some_iff.mp h with ⟨vectors, hvectors, hc⟩
  rcases hjson.record? hfields with ⟨n, rfl, hfits⟩
  have hfinite : ∀ v ∈ vectors, ∀ x ∈ v.toList, x.isFinite = true := by
    refine Option.forall_mem_of_mapM hvectors fun field hfield v hv => ?_
    rcases Option.bind_eq_some_iff.mp hv with ⟨part, rfl, hpart⟩
    exact (Vec3.finite_of_ofJson? (hfits part hfield) hpart).2
  split at hc
  · exact Option.some.inj hc ▸ hfinite
  · cases hc

end Connector

/-! ## Shapes -/

namespace Shape

/-- The numbers of a shape are those of its solid. -/
def numbers (s : Shape) : List Float := s.primitive.numbers

/-- The shapes are of one kind. -/
def Matches (r : Float → Float → Prop) : Shape → Shape → Prop
  | .frustum a, .frustum b => a.Matches r b
  | .cylinder a, .cylinder b => a.Matches r b
  | .cone a, .cone b => a.Matches r b
  | .sphere a, .sphere b => r a b
  | _, _ => False

theorem matches_self_iff {s : Shape} : s.Matches ReadsAs s ↔ AllReadBack s.numbers := by
  cases s with
  | frustum f | cylinder f | cone f => exact Primitive.matches_self_iff (p := .frustum f)
  | sphere x => exact Primitive.matches_self_iff (p := .sphere x)

/-- A shape is read as its key says. -/
theorem ofJson?_echo_iff (s t : Shape) : ofJson? s.toJson.echo = some t ↔ s.Matches ReadsAs t := by
  cases s with
  | frustum f | cylinder f | cone f =>
      change (Frustum.ofJson? f.toJson.echo).map _ = some t ↔ _
      rw [Option.map_eq_some_iff]
      cases t <;> simp [Frustum.ofJson?_echo_iff, Matches]
  | sphere x =>
      change (sphereOfJson? (sphereToJson x).echo).map _ = some t ↔ _
      rw [sphereOfJson?, sphereToJson, Primitive.diameter?_echo, Option.map_eq_some_iff]
      cases t <;> simp [Matches, ReadsAs]

theorem depth_toJson (s : Shape) : s.toJson.depth = 2 := by
  cases s with
  | frustum f | cylinder f | cone f => rcases f with ⟨_, _, _, _, _ | _⟩ <;> rfl
  | sphere x => rfl

/-- What is read of a shape. -/
theorem ofText?_compact_iff (s t : Shape) :
    ofText? s.toJson.compact = some t ↔ s.Matches ReadsAs t := by
  have hdepth : s.toJson.depth ≤ maxDepth := by
    rw [depth_toJson]
    decide
  rw [ofText?, skim?_compact_eq hdepth, Option.bind_some, ofJson?_echo_iff]

end Shape

/-! ## Checked vectors -/

/-- The vector of a rotation that is checked, if there is one: degrees are no vector. -/
def Rotation.vectors (r : Rotation) : List Vec3 := r.pole.toList

/-- The vectors of a transformation that are checked. -/
def Transformation.vectors : Transformation → List Vec3
  | .translate offset => [offset]
  | .rotate rotation => rotation.vectors
  | .scale factor => [factor]

/-- Vectors of finite components pass the check. Their length may be infinite, if a square is, but
    it is a number all the same, and nothing else is asked. -/
theorem Vec3.checked_of_forall {v : Vec3} (h : ∀ x ∈ v.toList, x.isFinite = true) :
    v.checked = .ok v := by
  have hfinite : v.Finite := ⟨h v.x List.mem_cons_self, h v.y (by simp [toList]),
    h v.z (by simp [toList])⟩
  exact hfinite.checked

theorem Rotation.checked_of_forall {r : Rotation} (h : ∀ x ∈ r.numbers, x.isFinite = true) :
    ∀ v ∈ r.vectors, v.checked = .ok v := by
  intro v hv
  refine Vec3.checked_of_forall fun x hx => h x (List.mem_append_right _ ?_)
  rw [Option.mem_toList.mp hv]
  exact hx

theorem Transformation.checked_of_forall {t : Transformation}
    (h : ∀ x ∈ t.numbers, x.isFinite = true) : ∀ v ∈ t.vectors, v.checked = .ok v := by
  cases t with
  | translate offset => exact List.forall_mem_singleton.mpr (Vec3.checked_of_forall h)
  | rotate rotation => exact Rotation.checked_of_forall h
  | scale factor => exact List.forall_mem_singleton.mpr (Vec3.checked_of_forall h)

/-- A movement, a connector or a shape is read from its own text, and is what it was in every bit,
    exactly if each of its numbers is read as it was written, which only finite numbers are. Nothing
    is asked of anything else in it: the kind of a movement or a shape, the form of an angle, and
    what is there or absent always come back with the numbers. Depth is no matter here, since none
    of them is nested deep.

    The last part is about what is read from any text at all, whoever wrote it. All vectors in it
    pass the check that vectors are put to when they are made, and are not changed by it, so that
    reading never fails for the check. -/
theorem text_restores (t : Transformation) (r : Rotation) (c : Connector) (s : Shape) :
    (Transformation.ofText? .list (t.toJson .list).compact = some t ↔ AllReadBack t.numbers) ∧
      (Rotation.ofText? .list (r.toJson .list).compact = some r ↔ AllReadBack r.numbers) ∧
      (Connector.ofText? c.toJson.compact = some c ↔ AllReadBack c.numbers) ∧
      (Shape.ofText? s.toJson.compact = some s ↔ AllReadBack s.numbers) ∧
      (∀ x y : Float, ReadsAs x y → x.isFinite = true) ∧
      ∀ text,
        (∀ v, Vec3.ofText? .list text = some v → v.checked = .ok v) ∧
        (∀ t, Transformation.ofText? .list text = some t → ∀ v ∈ t.vectors, v.checked = .ok v) ∧
        (∀ r, Rotation.ofText? .list text = some r → ∀ v ∈ r.vectors, v.checked = .ok v) ∧
        ∀ c, Connector.ofText? text = some c → ∀ v ∈ c.vectors, v.checked = .ok v := by
  refine ⟨(t.ofText?_compact_iff .list t).trans Transformation.carried_matches_self_iff,
    (r.ofText?_compact_iff .list r).trans Rotation.carried_matches_self_iff,
    (c.ofText?_compact_iff c).trans Connector.matches_self_iff,
    (s.ofText?_compact_iff s).trans Shape.matches_self_iff, fun _ _ => ReadsAs.isFinite,
    fun text => ⟨fun v hv => ?_, fun t ht => ?_, fun r hr => ?_, fun c hc v hv => ?_⟩⟩
  · rcases Option.bind_eq_some_iff.mp hv with ⟨json, hjson, hv⟩
    exact Vec3.checked_of_forall (Vec3.finite_of_ofJson? (fits_of_skim? hjson) hv).2
  · rcases Option.bind_eq_some_iff.mp ht with ⟨json, hjson, ht⟩
    have hskim := (Option.filter_eq_some_iff.mp hjson).1
    exact Transformation.checked_of_forall
      (Transformation.finite_of_ofJson? (fits_of_skim? hskim) ht).2
  · rcases Option.bind_eq_some_iff.mp hr with ⟨json, hjson, hr⟩
    exact Rotation.checked_of_forall (Rotation.finite_of_ofJson? (fits_of_skim? hjson) hr).2
  · rcases Option.bind_eq_some_iff.mp hc with ⟨json, hjson, hc⟩
    exact Vec3.checked_of_forall (Connector.finite_of_ofJson? (fits_of_skim? hjson) hc v hv)

/-- A turn about an axis, a turn without one, a connector and a cone come back, since each of their
    numbers does. The cone differs from a frustum of the same measures in its key alone. -/
theorem text_restores_cone :
    let t : Transformation := .rotate ⟨some (.single 22.5), some ⟨0, 0.6, -0.8⟩⟩
    let r : Rotation := ⟨some (.euler ⟨90, 0, -0.1⟩), none⟩
    let c : Connector := ⟨⟨1.5, -2, 0.125⟩, ⟨0, 0, 1⟩, ⟨1, 0, 0⟩⟩
    let s : Shape := .cone ⟨12.5, 0, 0.1, true, some 64⟩
    Transformation.ofText? .list (t.toJson .list).compact = some t ∧
      Rotation.ofText? .list (r.toJson .list).compact = some r ∧
      Connector.ofText? c.toJson.compact = some c ∧
      Shape.ofText? s.toJson.compact = some s := by
  intro t r c s
  have ht : AllReadBack t.numbers := by decide +kernel
  have hr : AllReadBack r.numbers := by decide +kernel
  have hc : AllReadBack c.numbers := by decide +kernel
  have hs : AllReadBack s.numbers := by decide +kernel
  rcases text_restores t r c s with ⟨htransformation, hrotation, hconnector, hshape, -⟩
  exact ⟨htransformation.mpr ht, hrotation.mpr hr, hconnector.mpr hc, hshape.mpr hs⟩

end SolidModel
