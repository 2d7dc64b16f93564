import SolidModel.Proofs.Body.RoundTrip

/-!
# What Is Lost in a Text

What is read from the text of a body, of a transformation or of a rotation.

Wherever a text can be read at all, the value that is read is the one that was written, in its kinds
and in which of its optional parts are there, and each number is what is read of it on its own. In
particular each number was finite, since nothing else is read as a number. There is one exception,
which `Body.carried` is about. An angle that is a single number and not finite leaves a null behind,
and as a rotation may have no angle, the null is read as the absence of one. The same number in an
Euler angle or in a pole makes reading fail, as it does everywhere else.

Unlike a body, transformations and rotations are never nested too deep.

## Main definitions

* `Carries`: What reading makes of something that was written.

## Theorems

* `Transformation.ofText?_compact_iff`, `Rotation.ofText?_compact_iff`: What is read of a movement.
* `text_carries`: What is read of a body and of a movement, and when it is what it was.
* `Body.angle_lost`: An angle is lost.
-/

namespace SolidModel

open Json

/-- Nothing is cut from what is not nested too deep. -/
theorem Json.skim?_compact_eq {value : Json} (h : value.depth ≤ maxDepth) :
    skim? value.compact = some value.echo := by
  rw [skim?_compact, cut_eq_self _ (by rw [Nat.zero_add, depth_echo]; exact h)]

/-! ## Movements -/

theorem Vec3.depth_toJson (form : Form) (v : Vec3) : (v.toJson form).depth = 1 := by
  cases form <;> rfl

theorem Angle.depth_toJson_le (form : Vec3.Form) (a : Angle) : (a.toJson form).depth ≤ 1 := by
  cases a with
  | single x => exact Nat.zero_le 1
  | euler v => exact Nat.le_of_eq (v.depth_toJson form)

theorem Rotation.depth_fields_le (form : Vec3.Form) (r : Rotation) :
    ∀ value ∈ (r.toFields form).map Prod.snd, value.depth ≤ 1 :=
  forall_mem_pair (depth_ofOption_le fun a _ => a.depth_toJson_le form)
    (depth_ofOption_le fun v _ => Nat.le_of_eq (v.depth_toJson form))

theorem Rotation.depth_toJson_le (form : Vec3.Form) (r : Rotation) :
    (r.toJson form).depth ≤ 2 :=
  depth_object_le_iff.mpr (r.depth_fields_le form)

theorem Transformation.depth_toJson_le (form : Vec3.Form) (t : Transformation) :
    (t.toJson form).depth ≤ 2 := by
  cases t with
  | translate v =>
      exact depth_object_le_iff.mpr
        (forall_mem_pair (Nat.zero_le 1) (Nat.le_of_eq (v.depth_toJson form)))
  | rotate r =>
      exact depth_object_le_iff.mpr
        (List.forall_mem_cons.mpr ⟨Nat.zero_le 1, r.depth_fields_le form⟩)
  | scale v =>
      exact depth_object_le_iff.mpr
        (forall_mem_pair (Nat.zero_le 1) (Nat.le_of_eq (v.depth_toJson form)))

theorem Transformation.ofText?_compact_iff (t : Transformation) (form : Vec3.Form)
    (u : Transformation) :
    ofText? form (t.toJson form).compact = some u ↔ t.carried.Matches ReadsAs u := by
  have hdepth : (t.toJson form).depth ≤ maxDepth :=
    Nat.le_trans (t.depth_toJson_le form) (by decide)
  rw [ofText?, Option.bind_eq_some_iff]
  simp only [parse?_eq_some_iff (skim?_compact (t.toJson form))]
  constructor
  · rintro ⟨_, ⟨-, -, rfl⟩, h⟩
    exact (ofJson?_echo_iff form .alone t u).mp h
  · intro h
    exact ⟨_, ⟨hdepth, isReadable_echo form h, rfl⟩, (ofJson?_echo_iff form .alone t u).mpr h⟩

-- A rotation on its own is only skimmed, so that readability does not come in.
theorem Rotation.ofText?_compact_iff (r : Rotation) (form : Vec3.Form) (s : Rotation) :
    ofText? form (r.toJson form).compact = some s ↔ r.carried.Matches ReadsAs s := by
  have hdepth : (r.toJson form).depth ≤ maxDepth :=
    Nat.le_trans (r.depth_toJson_le form) (by decide)
  rw [ofText?, skim?_compact_eq hdepth, Option.bind_some, ofJson?_echo_iff]

/-! ## Losses -/

/-- What reading makes of something that was written: a value that is alike to what is carried of
    it, with each number as it is read on its own. -/
structure Carries {α : Type} (alike : α → α → Prop) (written carried : α) (numbers : List Float)
    (fits : Prop) (read : Option α) : Prop where
  /-- What is read, and that nothing is read otherwise. -/
  reads_iff : ∀ other, read = some other ↔ fits ∧ alike carried other
  /-- When nothing is lost but the last bits of numbers. -/
  alike_iff : (∀ other, read = some other → alike written other) ↔
    carried = written ∨ read = none
  /-- When nothing is lost. -/
  same_iff : (∀ other, read = some other → other = written) ↔ AllReadBack numbers ∨ read = none

theorem Carries.of_reads_iff {α : Type} {alike : α → α → Prop} {written carried : α}
    {numbers : List Float} {fits : Prop} {read : Option α}
    (hreads : ∀ other, read = some other ↔ fits ∧ alike carried other)
    (halike : ∀ other, alike carried other → alike written other → carried = written)
    (hself : alike carried written ↔ AllReadBack numbers) :
    Carries alike written carried numbers fits read := by
  cases read with
  | none =>
      exact ⟨hreads, iff_of_true nofun (Or.inr rfl), iff_of_true nofun (Or.inr rfl)⟩
  | some y =>
      have hy := (hreads y).mp rfl
      refine ⟨hreads, ⟨fun h => Or.inl (halike y hy.2 (h y rfl)), ?_⟩,
        ⟨fun h => Or.inl (hself.mp (h y rfl ▸ hy.2)), ?_⟩⟩
      · rintro (hnothing | hnone) other hother
        · exact hnothing ▸ ((hreads other).mp hother).2
        · exact absurd hnone (by simp)
      · rintro (hback | hnone) other hother
        · -- Only one value is read, and the one that was written is.
          exact Option.some.inj (hother.symm.trans ((hreads written).mpr ⟨hy.1, hself.mpr hback⟩))
        · exact absurd hnone (by simp)

/-- What is read from the text of a body or a movement is what was written, with each number as it
    is read on its own, but without the angles that were written as null. Nothing is read from the
    text of a body that is nested too deep, or where any other number cannot be read.

    `Carries` says this three times over, of bodies, movements and rotations, and it says when
    nothing is lost: what is read is the same up to its numbers exactly if no such angle was there,
    and the same in every bit exactly if each number is read as it was written. Numbers that are not
    finite never are, which is the last part. -/
theorem text_carries (form : Vec3.Form) (body : Body) (t : Transformation) (r : Rotation) :
    Carries (Body.Matches ReadsAs) body body.carried body.numbers
        (body.toJson.depth ≤ maxDepth) (Body.ofText? body.toText) ∧
      Carries (Transformation.Matches ReadsAs) t t.carried t.numbers True
        (Transformation.ofText? form (t.toJson form).compact) ∧
      Carries (Rotation.Matches ReadsAs) r r.carried r.numbers True
        (Rotation.ofText? form (r.toJson form).compact) ∧
      ∀ x y : Float, ReadsAs x y → x.isFinite = true := by
  refine ⟨.of_reads_iff body.ofText?_toText_iff (fun _ => body.carried_eq_of_matches)
      body.carried_matches_self_iff,
    .of_reads_iff (fun u => ?_) (fun _ => Transformation.carried_eq_of_matches)
      Transformation.carried_matches_self_iff,
    .of_reads_iff (fun s => ?_) (fun _ => Rotation.carried_eq_of_matches)
      Rotation.carried_matches_self_iff,
    fun _ _ => ReadsAs.isFinite⟩
  · rw [t.ofText?_compact_iff, true_and]
  · rw [r.ofText?_compact_iff, true_and]

/-- A ball that is turned by no number is read back as a ball that is not turned by anything, and
    so is the turn on its own. What is read has one angle less than what was written, whatever
    its numbers are. -/
theorem Body.angle_lost :
    let ball : Body := .primitive (.sphere 1)
    let turned : Body := .moved (.rotate ⟨some (.single (0 / 0)), none⟩) ball
    let unturned : Body := .moved (.rotate ⟨none, none⟩) ball
    (ofText? turned.toText = some unturned ∧ ¬ turned.Matches (fun _ _ => True) unturned) ∧
    (Rotation.ofText? .list (Rotation.toJson .list ⟨some (.single (0 / 0)), none⟩).compact =
        some ⟨none, none⟩ ∧
      ¬ Rotation.Matches (fun _ _ => True) ⟨some (.single (0 / 0)), none⟩ ⟨none, none⟩) := by
  intro ball turned unturned
  have hnan : (0 / 0 : Float).isFinite = false := by decide +kernel
  have hsphere : readBack? 1 = some 1 := by decide +kernel
  have hcarried := Rotation.carried_single hnan none
  have hturn : (Rotation.carried ⟨some (.single (0 / 0)), none⟩).Matches ReadsAs ⟨none, none⟩ := by
    rw [hcarried]
    exact ⟨.none, .none⟩
  refine ⟨⟨(ofText?_toText_iff turned unturned).mpr ⟨by decide, hturn, hsphere⟩, ?_⟩,
    (Rotation.ofText?_compact_iff _ .list _).mpr hturn, ?_⟩
  · exact fun h => nomatch h.1.1
  · exact fun h => nomatch h.1

end SolidModel
