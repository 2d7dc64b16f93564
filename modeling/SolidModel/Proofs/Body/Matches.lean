import SolidModel.Body.Basic

/-!
# Bodies Alike in Structure

When two bodies are the same tree, up to what is asked of their numbers.

`Body.same` compares numbers as floats compare. Other comparisons are of interest too: bits, or
the text of a number. So the relation on numbers is an argument here, and `Body.Matches r` says
that two bodies have the same shape, that everything in them which is no number is the same, and
that numbers in the same place are related by `r`. A part that may be absent is absent from both
or from neither.

With equality for the relation nothing is left that could differ. `Body.matches_eq_iff` says so,
and thereby that no part of a body has been forgotten.

## Main definitions

* `Vec3.Matches`, `Rotation.Matches`, `Transformation.Matches`: The relation on movements.
* `Frustum.Matches`, `Primitive.Matches`, `Color.Matches`: The relation on what is at a node.
* `Body.Matches`, `Body.AllMatch`: The relation on bodies.

## Theorems

* `Body.matches_eq_iff`: Bodies with equal numbers in equal places are equal.
-/

namespace SolidModel

/-- The components are related one by one. -/
def Vec3.Matches (r : Float → Float → Prop) (v w : Vec3) : Prop :=
  r v.x w.x ∧ r v.y w.y ∧ r v.z w.z

/-- The angles are of one form. -/
def Angle.Matches (r : Float → Float → Prop) : Angle → Angle → Prop
  | .single a, .single b => r a b
  | .euler v, .euler w => v.Matches r w
  | _, _ => False

/-- Both have an angle or neither, and both a pole or neither. -/
def Rotation.Matches (r : Float → Float → Prop) (a b : Rotation) : Prop :=
  Option.Rel (Angle.Matches r) a.angle b.angle ∧ Option.Rel (Vec3.Matches r) a.pole b.pole

/-- The movements are of one kind. -/
def Transformation.Matches (r : Float → Float → Prop) :
    Transformation → Transformation → Prop
  | .translate v, .translate w => v.Matches r w
  | .rotate a, .rotate b => a.Matches r b
  | .scale v, .scale w => v.Matches r w
  | _, _ => False

/-- The measures are related one by one, and what is no measure is the same. -/
structure Frustum.Matches (r : Float → Float → Prop) (a b : Frustum) : Prop where
  /-- The measures of the bottom faces are related. -/
  bottomDiameter : r a.bottomDiameter b.bottomDiameter
  /-- The measures of the top faces are related. -/
  topDiameter : r a.topDiameter b.topDiameter
  /-- The heights are related. -/
  height : r a.height b.height
  /-- The origin lies in the same place. -/
  centered : a.centered = b.centered
  /-- The number of sides is the same, or both are round. -/
  segments : a.segments = b.segments

/-- The solids are of one kind. -/
def Primitive.Matches (r : Float → Float → Prop) : Primitive → Primitive → Prop
  | .frustum a, .frustum b => a.Matches r b
  | .sphere a, .sphere b => r a b
  | _, _ => False

/-- The channels are related one by one. -/
def Color.Matches (r : Float → Float → Prop) (c d : Color) : Prop :=
  r c.red d.red ∧ r c.green d.green ∧ r c.blue d.blue ∧ r c.alpha d.alpha

namespace Body

mutual

/-- The bodies are the same tree, with related numbers in the same places. -/
def Matches (r : Float → Float → Prop) : Body → Body → Prop
  | .primitive a, .primitive b => a.Matches r b
  | .composition operator operands, .composition operator' operands' =>
    operator = operator' ∧ AllMatch r operands operands'
  | .moved step child, .moved step' child' => step.Matches r step' ∧ Matches r child child'
  | .colored color child, .colored color' child' =>
    color.Matches r color' ∧ Matches r child child'
  | _, _ => False

/-- The bodies match in order, and there are as many of one as of the other. -/
def AllMatch (r : Float → Float → Prop) : List Body → List Body → Prop
  | [], [] => True
  | a :: as, b :: bs => Matches r a b ∧ AllMatch r as bs
  | _, _ => False

end

end Body

/-- Matching in every part is equality, for what may be absent. -/
theorem optionRel_eq_iff {α : Type} {q : α → α → Prop} (hq : ∀ x y, q x y ↔ x = y)
    {a b : Option α} : Option.Rel q a b ↔ a = b := by
  rcases a with _ | x <;> rcases b with _ | y
  · exact iff_of_true .none rfl
  · exact iff_of_false (fun h => nomatch h) (fun h => nomatch h)
  · exact iff_of_false (fun h => nomatch h) (fun h => nomatch h)
  · rw [Option.some.injEq, ← hq]
    exact ⟨fun | .some h => h, .some⟩

theorem Vec3.matches_eq_iff {v w : Vec3} : v.Matches (· = ·) w ↔ v = w := by
  rw [Vec3.Matches, ← Vec3.mk.injEq]

theorem Angle.matches_eq_iff {a b : Angle} : a.Matches (· = ·) b ↔ a = b := by
  cases a <;> cases b <;> simp [Angle.Matches, Vec3.matches_eq_iff]

theorem Rotation.matches_eq_iff {a b : Rotation} : a.Matches (· = ·) b ↔ a = b := by
  rw [Rotation.Matches, optionRel_eq_iff fun _ _ => Angle.matches_eq_iff,
    optionRel_eq_iff fun _ _ => Vec3.matches_eq_iff, ← Rotation.mk.injEq]

theorem Transformation.matches_eq_iff {a b : Transformation} :
    a.Matches (· = ·) b ↔ a = b := by
  cases a <;> cases b <;>
    simp [Transformation.Matches, Vec3.matches_eq_iff, Rotation.matches_eq_iff]

theorem Frustum.matches_eq_iff {a b : Frustum} : a.Matches (· = ·) b ↔ a = b := by
  rcases a with ⟨b₁, t₁, h₁, c₁, s₁⟩
  rcases b with ⟨b₂, t₂, h₂, c₂, s₂⟩
  rw [Frustum.mk.injEq]
  exact ⟨fun h => ⟨h.1, h.2, h.3, h.4, h.5⟩, fun ⟨h₁, h₂, h₃, h₄, h₅⟩ => ⟨h₁, h₂, h₃, h₄, h₅⟩⟩

theorem Primitive.matches_eq_iff {a b : Primitive} : a.Matches (· = ·) b ↔ a = b := by
  cases a <;> cases b <;> simp [Primitive.Matches, Frustum.matches_eq_iff]

theorem Color.matches_eq_iff {c d : Color} : c.Matches (· = ·) d ↔ c = d := by
  rw [Color.Matches, ← Color.mk.injEq]

namespace Body

mutual

theorem matches_eq_iff (a b : Body) : a.Matches (· = ·) b ↔ a = b := by
  cases a with
  | primitive solid => cases b <;> simp [Matches, Primitive.matches_eq_iff]
  | composition operator operands =>
      cases b <;> simp [Matches, allMatch_eq_iff operands]
  | moved step child =>
      cases b <;> simp [Matches, Transformation.matches_eq_iff, matches_eq_iff child]
  | colored color child =>
      cases b <;> simp [Matches, Color.matches_eq_iff, matches_eq_iff child]

theorem allMatch_eq_iff (as bs : List Body) : AllMatch (· = ·) as bs ↔ as = bs := by
  cases as with
  | nil => cases bs <;> simp [AllMatch]
  | cons a rest => cases bs <;> simp [AllMatch, matches_eq_iff a, allMatch_eq_iff rest]

end

end Body

end SolidModel
