import SolidModel.Proofs.Success
import SolidModel.Vec3.Alignment

/-!
# How Vectors Fail

Which failures a caller of the vector operations has to expect.

Two vectors on one line are a mild trouble. Only `Vec3.normal` reports it, and whoever asks for a
normal on the way to something else is expected to do without: another axis is tried, or the angle
is one of two that need no normal. A retreat may fail again, and it may fail in another way, so it
is not enough to look at the place where a mild failure is caught. What has to be seen is that
behind every such place there is another one, and that the last of them does not report a mild
failure at all.

No number enters into this. Whatever lengths, products and comparisons come to, also with infinities
and with values that are no numbers, a report is passed on only if it is severe.

## Main definitions

* `Except.FailsOnly`: A result that fails in certain ways only.
* `Degeneracy.Severe`: The failures that are not a matter of two vectors on one line.

## Theorems

* `Degeneracy.severe_iff`: They are the ones that are not caught.
* `Vec3.arbitraryNormal_failsOnly`: The last retreat fails severely.
* `Vec3.alignmentAxis_cases`: The three attempts to find an axis.
* `Vec3.alignmentRotation_failsOnly`, `Vec3.rotateToAlignment_failsOnly`: So do alignments.
* `Vec3.angleBetween_failsOnly`: So does the measuring of angles.
* `Vec3.angleBetween_of_null`: From a null vector there is no turn.
-/

namespace SolidModel

namespace Except

variable {ε ε' α β : Type} {p : ε → Prop} {q : ε' → Prop} {x : Except ε α}

/-- A result fails only in certain ways. It need not fail in any of them. -/
def FailsOnly (p : ε → Prop) (x : Except ε α) : Prop := ∀ e, x = .error e → p e

namespace FailsOnly

theorem ok (p : ε → Prop) (a : α) : FailsOnly p (.ok a) := by
  intro e h
  cases h

theorem error {e : ε} (he : p e) : FailsOnly p (.error e : Except ε α) := by
  intro e' h
  cases h
  exact he

/-- One result after another fails as the one or the other does. -/
theorem bind {f : α → Except ε β} (hx : FailsOnly p x)
    (hf : ∀ a, x = .ok a → FailsOnly p (f a)) : FailsOnly p (x >>= f) := by
  intro e h
  rcases bind_eq_error_iff.mp h with hx' | ⟨a, ha, hfail⟩
  · exact hx e hx'
  · exact hf a ha e hfail

/-- A failure may be told in other terms. -/
theorem mapError {f : ε → ε'} (hx : FailsOnly p x) (hf : ∀ e, p e → q (f e)) :
    FailsOnly q (x.mapError f) := by
  intro e h
  cases x with
  | ok a => cases h
  | error cause =>
      cases h
      exact hf cause (hx cause rfl)

theorem map {f : α → β} (hx : FailsOnly p x) : FailsOnly p (x.map f) := by
  intro e h
  cases x with
  | ok a => cases h
  | error cause =>
      cases h
      exact hx e rfl

end FailsOnly

end Except

namespace Degeneracy

/-- The failures that are not a matter of two vectors on one line. -/
inductive Severe : Degeneracy → Prop
  | undefinedMagnitude (v : Vec3) : Severe (.undefinedMagnitude v)
  | nullVector (null other : Vec3) : Severe (.nullVector null other)
  | noNormal (v : Vec3) : Severe (.noNormal v)

/-- The severe failures are the ones that are not caught: every attempt to go on after a failure
    asks for two vectors on one line. -/
theorem severe_iff {e : Degeneracy} : e.Severe ↔ ¬ e.isColinear = true := by
  constructor
  · intro h
    cases h <;> exact Bool.false_ne_true
  · intro h
    cases e with
    | undefinedMagnitude v => exact .undefinedMagnitude v
    | nullVector null other => exact .nullVector null other
    | parallel left right => exact absurd rfl h
    | antiparallel left right => exact absurd rfl h
    | noNormal v => exact .noNormal v

theorem severe_ofNull (a b : Vec3) : (ofNull a b).Severe := by
  unfold ofNull
  split
  · exact .nullVector a b
  · exact .nullVector b a

end Degeneracy

namespace Vec3

theorem checked_failsOnly (v : Vec3) : Except.FailsOnly Degeneracy.Severe v.checked := by
  unfold checked
  split
  · exact Except.FailsOnly.error (.undefinedMagnitude v)
  · exact Except.FailsOnly.ok _ v

theorem normalized_failsOnly (v : Vec3) : Except.FailsOnly Degeneracy.Severe v.normalized :=
  checked_failsOnly _

/-- Where two vectors are null, the normal says so. -/
theorem normal_of_null {a b : Vec3} (h : (a.isNull || b.isNull) = true) :
    a.normal b = .error (.ofNull a b) := by
  rw [normal, if_pos h]

/-- The last retreat: among the axes that are left, a mild failure leads to the next one, and there
    is something else to report when none is left. -/
theorem normalAmong_failsOnly (v : Vec3) (axes : List Vec3) :
    Except.FailsOnly Degeneracy.Severe (v.normalAmong axes) := by
  induction axes with
  | nil => exact Except.FailsOnly.error (.noNormal v)
  | cons axis rest ih =>
      unfold normalAmong
      cases v.normal axis with
      | ok n => exact Except.FailsOnly.ok _ n
      | error e =>
          by_cases hmild : e.isColinear = true
          · simp only [hmild, if_true]
            exact ih
          · simp only [hmild]
            exact Except.FailsOnly.error (Degeneracy.severe_iff.mpr hmild)

theorem arbitraryNormal_failsOnly (v : Vec3) :
    Except.FailsOnly Degeneracy.Severe v.arbitraryNormal :=
  v.normalAmong_failsOnly [axisX, axisY, axisZ]

/-- The axis of an alignment is looked for up to three times, and the search goes on only after a
    mild failure. -/
theorem alignmentAxis_cases (fallback inclined reference : Vec3) :
    (alignmentAxis fallback inclined reference = ⟨[], inclined.normal reference⟩ ∧
      Except.FailsOnly Degeneracy.Severe (inclined.normal reference)) ∨
    (alignmentAxis fallback inclined reference =
        ⟨[.colinear inclined reference fallback], fallback.normal reference⟩ ∧
      Except.FailsOnly Degeneracy.Severe (fallback.normal reference)) ∨
    alignmentAxis fallback inclined reference =
      ⟨[.colinear inclined reference fallback, .fallbackColinear fallback],
        fallback.arbitraryNormal⟩ := by
  unfold alignmentAxis
  -- Only for being colinear is a normal given up, once in favour of the fallback and then of any.
  cases inclined.normal reference with
  | ok axis => exact Or.inl ⟨rfl, Except.FailsOnly.ok _ axis⟩
  | error e =>
      by_cases hmild : e.isColinear = true
      · simp only [hmild, if_true]
        cases fallback.normal reference with
        | ok axis => exact Or.inr (Or.inl ⟨rfl, Except.FailsOnly.ok _ axis⟩)
        | error e' =>
            by_cases hmild' : e'.isColinear = true
            · simp only [hmild', if_true]
              exact Or.inr (Or.inr rfl)
            · simp only [hmild']
              exact Or.inr (Or.inl ⟨rfl, Except.FailsOnly.error (Degeneracy.severe_iff.mpr hmild')⟩)
      · simp only [hmild]
        exact Or.inl ⟨rfl, Except.FailsOnly.error (Degeneracy.severe_iff.mpr hmild)⟩

theorem alignmentAxis_failsOnly (fallback inclined reference : Vec3) :
    Except.FailsOnly Degeneracy.Severe (alignmentAxis fallback inclined reference).result := by
  rcases alignmentAxis_cases fallback inclined reference with ⟨h, hfails⟩ | ⟨h, hfails⟩ | h
  · rw [h]
    exact hfails
  · rw [h]
    exact hfails
  · rw [h]
    exact arbitraryNormal_failsOnly fallback

variable [Trigonometry]

theorem rotate_failsOnly (v : Vec3) (angle : Float) (pole : Vec3) :
    Except.FailsOnly Degeneracy.Severe (v.rotate angle pole) :=
  checked_failsOnly _

/-- From a null vector there is no turn along a direction that is given, and the report is that of
    the normal, the shorter one of the vectors first. It is made before anything else is looked at,
    so that no other report can come instead. -/
theorem angleBetween_of_null {a b : Vec3} (h : (a.isNull || b.isNull) = true) (look : Vec3) :
    a.angleBetween b (some look) = .error (.ofNull a b) := by
  simp only [angleBetween, if_pos h, normal_of_null h]

/-- Along a direction that is given there is a turn in all other cases. -/
theorem angleBetween_of_not_null {a b : Vec3} (h : ¬ (a.isNull || b.isNull) = true) (look : Vec3) :
    a.angleBetween b (some look) = .ok (signedAngle a b look) := by
  simp only [angleBetween, if_neg h]

/-- Without a direction the normal takes its place, and the mild failures are answered: vectors on
    one line have an angle of nothing or of half a circle between them. -/
theorem angleBetween_failsOnly (a b : Vec3) (look? : Option Vec3) :
    Except.FailsOnly Degeneracy.Severe (a.angleBetween b look?) := by
  have hseen : ∀ look, Except.FailsOnly Degeneracy.Severe (a.angleBetween b (some look)) := by
    intro look
    by_cases hnull : (a.isNull || b.isNull) = true
    · rw [angleBetween_of_null hnull]
      exact Except.FailsOnly.error (Degeneracy.severe_ofNull a b)
    · rw [angleBetween_of_not_null hnull]
      exact Except.FailsOnly.ok _ _
  cases look? with
  | some look => exact hseen look
  | none =>
      -- Without a side to look from, the normal is the one, and vectors in line need none.
      cases hnormal : a.normal b with
      | ok look =>
          have hsame : a.angleBetween b none = a.angleBetween b (some look) := by
            simp only [angleBetween, hnormal]
          rw [hsame]
          exact hseen look
      | error e =>
          cases e with
          | undefinedMagnitude v =>
              simp only [angleBetween, hnormal]
              exact Except.FailsOnly.error (.undefinedMagnitude v)
          | nullVector null other =>
              simp only [angleBetween, hnormal]
              exact Except.FailsOnly.error (.nullVector null other)
          | parallel left right =>
              simp only [angleBetween, hnormal]
              exact Except.FailsOnly.ok _ _
          | antiparallel left right =>
              simp only [angleBetween, hnormal]
              exact Except.FailsOnly.ok _ _
          | noNormal v =>
              simp only [angleBetween, hnormal]
              exact Except.FailsOnly.error (.noNormal v)

theorem alignmentRotation_failsOnly (fallback inclined reference : Vec3) :
    Except.FailsOnly Degeneracy.Severe (alignmentRotation fallback inclined reference).result := by
  unfold alignmentRotation
  rw [Logged.bind_result]
  refine (alignmentAxis_failsOnly fallback inclined reference).bind fun axis _ => ?_
  rw [Logged.bind_result]
  exact (angleBetween_failsOnly inclined reference (some axis)).bind fun angle _ =>
    Except.FailsOnly.ok _ _

theorem rotateToAlignment_failsOnly (v inclined reference : Vec3) :
    Except.FailsOnly Degeneracy.Severe (v.rotateToAlignment inclined reference).result := by
  unfold rotateToAlignment
  rw [Logged.bind_result]
  exact (alignmentRotation_failsOnly v inclined reference).bind fun turn _ =>
    rotate_failsOnly v turn.1 turn.2

end Vec3

end SolidModel
