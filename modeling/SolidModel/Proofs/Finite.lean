import SolidModel.Assembly.Placement
import SolidModel.Proofs.Float.Parts

/-!
# Finite Data

Data without infinities and without what is no number.

Equality of floats is no equivalence, since what is no number differs from itself. Closeness is
worse: the distance of an infinity from itself is no number, and so an infinity is not close to
itself either. Among finite numbers none of this happens. A finite number equals itself and is
close to itself, and so do vectors, transformations and shapes made of finite numbers.

## Main definitions

* `Vec3.Finite`, `Transformation.Finite`, `Shape.Finite`, `Color.Finite`, `Component.Finite`,
  `Assembly.Finite`: All numbers are finite.

## Theorems

* `Tolerance.isClose_self`: A finite number is close to itself.
* `Transformation.isCloseList_self`, `Shape.same_self`: So is what is made of finite numbers.
-/

namespace SolidModel

theorem parts_standard : (∃ m e h, parts Tolerance.standard.absolute = .finite .positive m e h) ∧
    ∃ m e h, parts Tolerance.standard.relative = .finite .positive m e h :=
  ⟨⟨_, _, _, rfl⟩, _, _, _, rfl⟩

theorem float_beq_self {x : Float} (h : x.isFinite = true) : (x == x) = true := by
  rw [beq_eq_parts]
  exact beq_self_of_isFinite h

/-- A finite number is close to itself. -/
theorem Tolerance.isClose_self {x : Float} (h : x.isFinite = true) :
    Tolerance.standard.isClose x x = true := by
  rcases parts_standard with ⟨⟨m, e, hm, habsolute⟩, n, f, hn, hrelative⟩
  have hfinite : (parts x).isFinite = true := h
  have hdistance : parts (x - x).abs = .zero .positive := by
    rw [parts_abs, parts_sub, sub_self_of_isFinite hfinite, stored_zero]
    rfl
  -- Whatever the allowance is after rounding, it is not below zero.
  have hallowance : Signed .positive
      (parts (Tolerance.standard.absolute + Tolerance.standard.relative * x.abs)) := by
    rw [parts_add, parts_mul, parts_abs, habsolute, hrelative]
    have hsize : Signed .positive (stored (parts x).abs) := (signed_abs hfinite).stored
    have hshare := (hsize.mul_finite Float.Model.Format.binary64 .positive n f hn).stored
    exact (Signed.add (u := .finite .positive m e hm) rfl hshare _).stored
  rw [Tolerance.isClose, decide_eq_true_iff, le_iff_parts, hdistance]
  exact hallowance.zero_le

namespace Vec3

/-- All components are finite. -/
def Finite (v : Vec3) : Prop := v.x.isFinite = true ∧ v.y.isFinite = true ∧ v.z.isFinite = true

instance (v : Vec3) : Decidable v.Finite := inferInstanceAs (Decidable (_ ∧ _ ∧ _))

theorem isClose_self {v : Vec3} (h : v.Finite) : v.isClose v = true := by
  rcases h with ⟨hx, hy, hz⟩
  simp only [isClose, isCloseWithin, Tolerance.isClose_self hx, Tolerance.isClose_self hy,
    Tolerance.isClose_self hz, Bool.and_self]

theorem same_self {v : Vec3} (h : v.Finite) : v.same v = true := by
  rcases h with ⟨hx, hy, hz⟩
  simp only [same, float_beq_self hx, float_beq_self hy, float_beq_self hz, Bool.and_self]

end Vec3

/-- An optional value equals itself if its value does. -/
theorem sameOption_self {α : Type} {same : α → α → Bool} {value : Option α}
    (h : ∀ a ∈ value, same a a = true) : sameOption same value value = true := by
  cases value with
  | none => rfl
  | some a => exact h a rfl

/-- All degrees are finite. -/
def Angle.Finite : Angle → Prop
  | .single degrees => degrees.isFinite = true
  | .euler degrees => degrees.Finite

instance : (angle : Angle) → Decidable angle.Finite
  | .single degrees => inferInstanceAs (Decidable (degrees.isFinite = true))
  | .euler degrees => inferInstanceAs (Decidable degrees.Finite)

theorem Angle.same_self {angle : Angle} (h : angle.Finite) : angle.same angle = true := by
  cases angle with
  | single degrees => exact float_beq_self h
  | euler degrees => exact Vec3.same_self h

namespace Transformation

/-- All numbers of a movement are finite. What is missing has none. -/
def Finite : Transformation → Prop
  | .translate offset => offset.Finite
  | .rotate rotation =>
    (∀ angle ∈ rotation.angle, angle.Finite) ∧ ∀ pole ∈ rotation.pole, pole.Finite
  | .scale factor => factor.Finite

instance : (step : Transformation) → Decidable step.Finite
  | .translate offset => inferInstanceAs (Decidable offset.Finite)
  | .rotate _ => inferInstanceAs (Decidable (_ ∧ _))
  | .scale factor => inferInstanceAs (Decidable factor.Finite)

theorem isClose_self {step : Transformation} (h : step.Finite) : step.isClose step = true := by
  cases step with
  | translate offset => exact Vec3.isClose_self h
  | scale factor => exact Vec3.isClose_self h
  | rotate rotation =>
      rcases h with ⟨hangle, hpole⟩
      have hsame := sameOption_self fun angle ha => Angle.same_self (hangle angle ha)
      have hclose := sameOption_self fun pole hp => Vec3.isClose_self (hpole pole hp)
      simp only [isClose, sameUnder, Rotation.sameUnder, hsame, hclose, Bool.and_self]

theorem isCloseList_self {steps : List Transformation} (h : ∀ step ∈ steps, step.Finite) :
    isCloseList steps steps = true := by
  induction steps with
  | nil => rfl
  | cons step rest ih =>
      rw [isCloseList, isClose_self (h step List.mem_cons_self), Bool.true_and]
      exact ih fun other hother => h other (List.mem_cons_of_mem _ hother)

/-- Lists that are close are of one length. -/
theorem length_eq_of_isCloseList {steps steps' : List Transformation}
    (h : isCloseList steps steps' = true) : steps.length = steps'.length := by
  induction steps generalizing steps' with
  | nil =>
      cases steps' with
      | nil => rfl
      | cons step rest => exact absurd h Bool.false_ne_true
  | cons step rest ih =>
      cases steps' with
      | nil => exact absurd h Bool.false_ne_true
      | cons step' rest' =>
          rw [isCloseList, Bool.and_eq_true] at h
          rw [List.length_cons, List.length_cons, ih h.2]

end Transformation

/-- All measures are finite. -/
def Frustum.Finite (f : Frustum) : Prop :=
  f.bottomDiameter.isFinite = true ∧ f.topDiameter.isFinite = true ∧ f.height.isFinite = true

instance (f : Frustum) : Decidable f.Finite := inferInstanceAs (Decidable (_ ∧ _ ∧ _))

theorem Frustum.same_self {f : Frustum} (h : f.Finite) : f.same f = true := by
  rcases h with ⟨hbottom, htop, hheight⟩
  simp only [same, float_beq_self hbottom, float_beq_self htop, float_beq_self hheight,
    beq_self_eq_true, Bool.and_self]

namespace Shape

/-- All measures are finite. -/
def Finite : Shape → Prop
  | .frustum f | .cylinder f | .cone f => f.Finite
  | .sphere diameter => diameter.isFinite = true

instance : (shape : Shape) → Decidable shape.Finite
  | .frustum f | .cylinder f | .cone f => inferInstanceAs (Decidable f.Finite)
  | .sphere diameter => inferInstanceAs (Decidable (diameter.isFinite = true))

theorem same_self {shape : Shape} (h : shape.Finite) : shape.same shape = true := by
  cases shape with
  | frustum f => exact Frustum.same_self h
  | cylinder f => exact Frustum.same_self h
  | cone f => exact Frustum.same_self h
  | sphere diameter => exact float_beq_self h

end Shape

/-- All channels are finite. -/
def Color.Finite (c : Color) : Prop := ∀ channel ∈ c.toList, channel.isFinite = true

instance (c : Color) : Decidable c.Finite :=
  inferInstanceAs (Decidable (∀ channel ∈ c.toList, channel.isFinite = true))

/-- All numbers stored with a component are finite. -/
structure Component.Finite (c : Component) : Prop where
  /-- The measures of its solid are finite. -/
  shape : ∀ shape ∈ c.shape, shape.Finite
  /-- The numbers in its own steps are finite. -/
  direct : ∀ step ∈ c.direct, step.Finite
  /-- The channels of its color are finite. -/
  color : ∀ color ∈ c.color, color.Finite

instance (c : Component) : Decidable c.Finite :=
  decidable_of_iff ((∀ shape ∈ c.shape, shape.Finite) ∧ (∀ step ∈ c.direct, step.Finite) ∧
    ∀ color ∈ c.color, color.Finite)
    ⟨fun h => ⟨h.1, h.2.1, h.2.2⟩, fun h => ⟨h.shape, h.direct, h.color⟩⟩

/-- All numbers stored in an assembly are finite. -/
def Assembly.Finite (a : Assembly) : Prop := ∀ id c, a.get? id = some c → c.Finite

/-- To know that an assembly is finite it is enough to look at the table. -/
theorem Assembly.finite_of_components {a : Assembly} (h : ∀ c ∈ a.components.toList, c.Finite) :
    a.Finite := by
  rintro ⟨n⟩ c hc
  cases n with
  | zero => exact absurd hc (by simp only [Assembly.get?, reduceCtorEq, not_false_eq_true])
  | succ n => exact h c (Array.mem_toList_iff.mpr (Array.mem_of_getElem? hc))

/-- In a finite assembly the transformations that a component stands under are finite. -/
theorem Assembly.Finite.history {a : Assembly} (h : a.Finite) (id : ComponentId) :
    ∀ step ∈ a.history id, step.Finite := by
  intro step hstep
  rcases List.mem_flatMap.mp hstep with ⟨z, _, hz⟩
  rw [Assembly.direct] at hz
  split at hz
  · exact absurd hz List.not_mem_nil
  · next c hc => exact (h z c hc).direct step hz

end SolidModel
