import Mathlib

/-!
# Exact Turns

Rotations as they would be without rounding.

The formula by which rotations are computed is a formula for real vectors first. It has a pole, and
it has a cosine and a sine, which are given as two numbers of their own. For a pole of length one,
and for numbers that belong to one angle, this is a rotation. But floats give neither, and the
formula is made use of with whatever they give. So everything here is stated for any pole and any
two numbers, and the errors are made of what the pole and the numbers are short of.

Three things are to be known of a turn. It keeps products, and with them lengths and right angles.
It keeps what lies along its pole. And if its pole is the normal of two directions, and its angle is
the angle between them, then it carries the one onto the other.

## Main definitions

* `length`: The length of a real vector.
* `turned`: A vector under the formula for rotations.
* `carried`: A vector under the shortest turn from one direction to another.

## Theorems

* `turned_dot_turned`: What a turn does to products.
* `length_turned_sub_self_le`: What a turn does to vectors along its pole.
* `length_turned_sub_goal_le`: Where a turn carries the direction that it was made for.
* `length_turned_sub_carried_le`: Where it carries other vectors.
* `length_sub_carried_le`: What is carried from a direction to itself, or almost, stays.
-/

namespace SolidModel

open scoped Matrix

section Length

/-- The length of a real vector. -/
noncomputable def length (x : Fin 3 → ℝ) : ℝ := √(x ⬝ᵥ x)

variable {x y z : Fin 3 → ℝ}

theorem length_nonneg (x : Fin 3 → ℝ) : 0 ≤ length x := Real.sqrt_nonneg _

theorem length_zero : length 0 = 0 := by rw [length, dotProduct_zero, Real.sqrt_zero]

theorem length_sq (x : Fin 3 → ℝ) : length x ^ 2 = x ⬝ᵥ x := by
  refine Real.sq_sqrt ?_
  rw [Matrix.vec3_dotProduct]
  linarith [mul_self_nonneg (x 0), mul_self_nonneg (x 1), mul_self_nonneg (x 2)]

/-- The length is that of the library. -/
theorem length_eq_norm (x : Fin 3 → ℝ) : length x = ‖WithLp.toLp 2 x‖ := by
  rw [← Real.sqrt_sq (norm_nonneg _), EuclideanSpace.real_norm_sq_eq, Fin.sum_univ_three, length,
    Matrix.vec3_dotProduct, sq, sq, sq]

theorem length_add_le (x y : Fin 3 → ℝ) : length (x + y) ≤ length x + length y := by
  rw [length_eq_norm, length_eq_norm, length_eq_norm]
  exact norm_add_le _ _

theorem length_sub_le (x y z : Fin 3 → ℝ) : length (x - z) ≤ length (x - y) + length (y - z) := by
  have h := length_add_le (x - y) (y - z)
  rwa [sub_add_sub_cancel] at h

theorem abs_length_sub_le (x y : Fin 3 → ℝ) : |length x - length y| ≤ length (x - y) := by
  rw [length_eq_norm, length_eq_norm, length_eq_norm]
  exact abs_norm_sub_norm_le _ _

theorem length_smul (a : ℝ) (x : Fin 3 → ℝ) : length (a • x) = |a| * length x := by
  rw [length_eq_norm, length_eq_norm]
  exact norm_smul a _

theorem length_neg (x : Fin 3 → ℝ) : length (-x) = length x := by
  rw [length_eq_norm, length_eq_norm]
  exact norm_neg _

theorem abs_dot_le (x y : Fin 3 → ℝ) : |x ⬝ᵥ y| ≤ length x * length y := by
  have h := abs_real_inner_le_norm (WithLp.toLp 2 y) (WithLp.toLp 2 x)
  rw [EuclideanSpace.inner_toLp_toLp, star_trivial, mul_comm, ← length_eq_norm,
    ← length_eq_norm] at h
  exact h

theorem length_cross_le (x y : Fin 3 → ℝ) : length (x ⨯₃ y) ≤ length x * length y := by
  refine le_of_sq_le_sq ?_ (mul_nonneg (length_nonneg x) (length_nonneg y))
  rw [mul_pow, length_sq, length_sq, length_sq, cross_dot_cross, dotProduct_comm y x]
  linarith [mul_self_nonneg (x ⬝ᵥ y)]

theorem abs_apply_le_length (x : Fin 3 → ℝ) (i : Fin 3) : |x i| ≤ length x := by
  rw [length_eq_norm]
  exact PiLp.norm_apply_le (WithLp.toLp 2 x) i

theorem length_le_of_abs_le {bound : ℝ} (h : ∀ i, |x i| ≤ bound) : length x ≤ 2 * bound := by
  have hpos : 0 ≤ bound := (abs_nonneg _).trans (h 0)
  refine le_of_sq_le_sq ?_ (by linarith)
  have hsquare (i : Fin 3) : x i * x i ≤ bound ^ 2 := by
    rw [← sq]
    exact sq_le_sq' (abs_le.mp (h i)).1 (abs_le.mp (h i)).2
  rw [length_sq, Matrix.vec3_dotProduct]
  linarith [hsquare 0, hsquare 1, hsquare 2, sq_nonneg bound]

/-- The errors of two vectors make that of their product. -/
theorem abs_dot_sub_dot_le (x y x' y' : Fin 3 → ℝ) :
    |x' ⬝ᵥ y' - x ⬝ᵥ y| ≤ length (x' - x) * length y' + length x * length (y' - y) := by
  have hsplit : x' ⬝ᵥ y' - x ⬝ᵥ y = (x' - x) ⬝ᵥ y' + x ⬝ᵥ (y' - y) := by
    rw [sub_dotProduct, dotProduct_sub]
    ring
  rw [hsplit]
  exact (abs_add_le _ _).trans (add_le_add (abs_dot_le _ _) (abs_dot_le _ _))

/-- The product with a vector is as good as that with another one near it. -/
theorem abs_dot_le_add (x y z : Fin 3 → ℝ) : |x ⬝ᵥ y| ≤ |x ⬝ᵥ z| + length x * length (y - z) := by
  have hsplit : x ⬝ᵥ y = x ⬝ᵥ z + x ⬝ᵥ (y - z) := by rw [dotProduct_sub, add_sub_cancel]
  rw [hsplit]
  exact (abs_add_le _ _).trans (add_le_add_right (abs_dot_le x (y - z)) _)

theorem length_cross_le_add (x y z : Fin 3 → ℝ) :
    length (x ⨯₃ y) ≤ length (x ⨯₃ z) + length x * length (y - z) := by
  have hsplit : x ⨯₃ y = x ⨯₃ z + x ⨯₃ (y - z) := by rw [map_sub, add_sub_cancel]
  rw [hsplit]
  exact (length_add_le _ _).trans (add_le_add_right (length_cross_le x (y - z)) _)

end Length

/-- A vector under the formula for rotations, with a cosine and a sine. -/
noncomputable def turned (k s : ℝ) (p x : Fin 3 → ℝ) : Fin 3 → ℝ :=
  k • x + s • (p ⨯₃ x) + ((p ⬝ᵥ x) * (1 - k)) • p

section Turned

variable {k s : ℝ} {p x y f g : Fin 3 → ℝ}

theorem turned_eq (k s : ℝ) (p x : Fin 3 → ℝ) : turned k s p x =
    ![x 0 * k + (p 1 * x 2 - p 2 * x 1) * s + p 0 * ((p ⬝ᵥ x) * (1 - k)),
      x 1 * k + (p 2 * x 0 - p 0 * x 2) * s + p 1 * ((p ⬝ᵥ x) * (1 - k)),
      x 2 * k + (p 0 * x 1 - p 1 * x 0) * s + p 2 * ((p ⬝ᵥ x) * (1 - k))] := by
  rw [turned, cross_apply]
  ext i
  fin_cases i
  all_goals
    simp only [Fin.isValue, Fin.reduceFinMk, Fin.zero_eta, Fin.mk_one, Pi.add_apply, Pi.smul_apply,
      smul_eq_mul, Matrix.cons_val]
    ring

/-- What a turn does to products, in terms of how far the pole is from having length one and how far
    the two numbers are from belonging to one angle. -/
theorem turned_dot_turned (k s : ℝ) (p x y : Fin 3 → ℝ) :
    turned k s p x ⬝ᵥ turned k s p y =
      (x ⬝ᵥ y) * (k ^ 2 + s ^ 2 + s ^ 2 * (p ⬝ᵥ p - 1)) +
        (p ⬝ᵥ x) * (p ⬝ᵥ y) * ((1 - k) ^ 2 * (p ⬝ᵥ p - 1) + (1 - k ^ 2 - s ^ 2)) := by
  simp only [turned, cross_apply, Matrix.vec3_dotProduct, Pi.add_apply, Pi.smul_apply, smul_eq_mul,
    Matrix.cons_val]
  ring

/-- A turn about a pole of almost length one, with a cosine and a sine that almost belong to one
    angle, almost keeps products. -/
theorem abs_turned_dot_turned_sub_le {κ π : ℝ} (hpole : |p ⬝ᵥ p - 1| ≤ π) (hπ : π ≤ 1)
    (hangle : |k ^ 2 + s ^ 2 - 1| ≤ κ) (hk : |k| ≤ 2) (hs : |s| ≤ 2) :
    |turned k s p x ⬝ᵥ turned k s p y - x ⬝ᵥ y| ≤ (3 * κ + 22 * π) * (length x * length y) := by
  have hsizes : 0 ≤ length x * length y := mul_nonneg (length_nonneg x) (length_nonneg y)
  have hproduct := abs_dot_le x y
  have halong : |(p ⬝ᵥ x) * (p ⬝ᵥ y)| ≤ 2 * (length x * length y) := by
    have hsquare : length p ^ 2 ≤ 2 := by
      rw [length_sq]
      linarith [(abs_le.mp hpole).2]
    rw [abs_mul]
    calc |p ⬝ᵥ x| * |p ⬝ᵥ y| ≤ length p * length x * (length p * length y) :=
          mul_le_mul (abs_dot_le p x) (abs_dot_le p y) (abs_nonneg _)
            (mul_nonneg (length_nonneg p) (length_nonneg x))
      _ = length p ^ 2 * (length x * length y) := by ring
      _ ≤ 2 * (length x * length y) := mul_le_mul_of_nonneg_right hsquare hsizes
  have hsquare : s ^ 2 ≤ 4 := by
    have h := sq_le_sq' (abs_le.mp hs).1 (abs_le.mp hs).2
    linarith
  have hshare : (1 - k) ^ 2 ≤ 9 := by
    have h := abs_le.mp hk
    nlinarith
  -- All of it is due to the length of the pole and to the squares of the two factors.
  have hsplit : turned k s p x ⬝ᵥ turned k s p y - x ⬝ᵥ y =
      (x ⬝ᵥ y) * (k ^ 2 + s ^ 2 - 1 + s ^ 2 * (p ⬝ᵥ p - 1)) +
        (p ⬝ᵥ x) * (p ⬝ᵥ y) * ((1 - k) ^ 2 * (p ⬝ᵥ p - 1) + -(k ^ 2 + s ^ 2 - 1)) := by
    rw [turned_dot_turned]
    ring
  have hfirst : |k ^ 2 + s ^ 2 - 1 + s ^ 2 * (p ⬝ᵥ p - 1)| ≤ κ + 4 * π := by
    refine (abs_add_le _ _).trans (add_le_add hangle ?_)
    rw [abs_mul, abs_of_nonneg (sq_nonneg s)]
    exact mul_le_mul hsquare hpole (abs_nonneg _) (by norm_num)
  have hsecond : |(1 - k) ^ 2 * (p ⬝ᵥ p - 1) + -(k ^ 2 + s ^ 2 - 1)| ≤ 9 * π + κ := by
    refine (abs_add_le _ _).trans (add_le_add ?_ (by rwa [abs_neg]))
    rw [abs_mul, abs_of_nonneg (sq_nonneg (1 - k))]
    exact mul_le_mul hshare hpole (abs_nonneg _) (by norm_num)
  rw [hsplit]
  refine (abs_add_le _ _).trans ?_
  rw [abs_mul, abs_mul]
  have h := mul_le_mul hproduct hfirst (abs_nonneg _) hsizes
  have h' := mul_le_mul halong hsecond (abs_nonneg _) (by linarith)
  linarith

theorem length_turned_le {κ π : ℝ} (hpole : |p ⬝ᵥ p - 1| ≤ π) (hπ : π ≤ 1)
    (hangle : |k ^ 2 + s ^ 2 - 1| ≤ κ) (hk : |k| ≤ 2) (hs : |s| ≤ 2) (hsmall : 3 * κ + 22 * π ≤ 1) :
    length (turned k s p x) ≤ 2 * length x := by
  have hnear := (abs_le.mp (abs_turned_dot_turned_sub_le (x := x) (y := x) hpole hπ hangle hk hs)).2
  have hshare := mul_le_mul_of_nonneg_right hsmall (mul_self_nonneg (length x))
  have hsquare := length_sq x
  refine le_of_sq_le_sq ?_ (by linarith [length_nonneg x])
  rw [length_sq]
  nlinarith

/-- A turn moves a vector by no more than its distance from the pole accounts for. -/
theorem length_turned_sub_self_le (k s : ℝ) (p x : Fin 3 → ℝ) :
    length (turned k s p x - x) ≤ |s| * length (p ⨯₃ x) +
      |1 - k| * (length p * length (p ⨯₃ x) + |p ⬝ᵥ p - 1| * length x) := by
  have hsplit : turned k s p x - x =
      s • (p ⨯₃ x) + (1 - k) • (p ⨯₃ (p ⨯₃ x) + (p ⬝ᵥ p - 1) • x) := by
    rw [cross_cross_eq_smul_sub_smul', turned]
    module
  rw [hsplit]
  refine (length_add_le _ _).trans (add_le_add (length_smul _ _).le ?_)
  rw [length_smul]
  refine mul_le_mul_of_nonneg_left ((length_add_le _ _).trans (add_le_add ?_ ?_)) (abs_nonneg _)
  · exact length_cross_le _ _
  · exact (length_smul _ _).le

/-- A turn is made for two directions if its cosine is their product, and its sine times its pole is
    their normal. Then it carries the one onto the other. The bound says what is lost if none of
    this is quite true. -/
theorem length_turned_sub_goal_le (k s : ℝ) (p f g : Fin 3 → ℝ) :
    length (turned k s p f - g) ≤ |k - f ⬝ᵥ g| * length f + |f ⬝ᵥ f - 1| * length g +
      length (s • p - f ⨯₃ g) * length f + |p ⬝ᵥ f| * |1 - k| * length p := by
  have hsplit : turned k s p f - g = (k - f ⬝ᵥ g) • f + (f ⬝ᵥ f - 1) • g +
      (s • p - f ⨯₃ g) ⨯₃ f + ((p ⬝ᵥ f) * (1 - k)) • p := by
    rw [LinearMap.map_sub₂, LinearMap.map_smul₂, cross_cross_eq_smul_sub_smul, dotProduct_comm g f,
      turned]
    module
  rw [hsplit, ← abs_mul]
  refine (length_add_le _ _).trans (add_le_add ((length_add_le _ _).trans (add_le_add
    ((length_add_le _ _).trans (add_le_add ?_ ?_)) (length_cross_le _ _))) ?_)
  · exact (length_smul _ _).le
  · exact (length_smul _ _).le
  · exact (length_smul _ _).le

/-- What becomes of a vector as one direction is turned onto another by the shortest way. It is
    written without an angle, and makes no sense for opposite directions, which have no shortest
    way. -/
noncomputable def carried (f g x : Fin 3 → ℝ) : Fin 3 → ℝ :=
  (f ⬝ᵥ g) • x + (f ⨯₃ g) ⨯₃ x + ((f ⨯₃ g) ⬝ᵥ x / (1 + f ⬝ᵥ g)) • (f ⨯₃ g)

/-- A turn that is made for two directions carries other vectors the same way. -/
theorem length_turned_sub_carried_le {r : ℝ} (hopposite : 0 < 1 + f ⬝ᵥ g) :
    length (turned k s p x - carried f g x) ≤ |k - f ⬝ᵥ g| * length x +
      length (s • p - f ⨯₃ g) * length x +
      (|(1 - k) * (1 + f ⬝ᵥ g) - r ^ 2| * (length p * length x) * length p +
        length (r • p - g ⨯₃ f) * length x * (|r| * length p + length (g ⨯₃ f))) /
          (1 + f ⬝ᵥ g) := by
  rw [← cross_anticomm f g]
  -- The normal is compared with the pole, which is as long as the sine says.
  obtain ⟨d, hd⟩ : ∃ d, r • p - -(f ⨯₃ g) = d := ⟨_, rfl⟩
  have hdot : d ⬝ᵥ x = r * (p ⬝ᵥ x) + (f ⨯₃ g) ⬝ᵥ x := by
    rw [← hd, sub_neg_eq_add, add_dotProduct, smul_dotProduct, smul_eq_mul]
  have hsplit : turned k s p x - carried f g x = (k - f ⬝ᵥ g) • x + (s • p - f ⨯₃ g) ⨯₃ x +
      (1 + f ⬝ᵥ g)⁻¹ • ((((1 - k) * (1 + f ⬝ᵥ g) - r ^ 2) * (p ⬝ᵥ x)) • p +
        ((d ⬝ᵥ x) • (r • p) - ((f ⨯₃ g) ⬝ᵥ x) • d)) := by
    rw [LinearMap.map_sub₂, LinearMap.map_smul₂, hdot, ← hd, turned, carried]
    generalize (f ⨯₃ g) ⨯₃ x = across
    generalize p ⨯₃ x = along
    match_scalars
    all_goals field_simp
    all_goals ring
  rw [hd, length_neg, hsplit]
  refine (length_add_le _ _).trans (add_le_add ((length_add_le _ _).trans
    (add_le_add (length_smul _ _).le (length_cross_le _ _))) ?_)
  rw [length_smul, abs_inv, abs_of_pos hopposite, inv_mul_eq_div]
  refine div_le_div_of_nonneg_right ((length_add_le _ _).trans (add_le_add ?_ ?_)) hopposite.le
  · rw [length_smul, abs_mul]
    exact mul_le_mul_of_nonneg_right
      (mul_le_mul_of_nonneg_left (abs_dot_le p x) (abs_nonneg _)) (length_nonneg p)
  · have h := length_sub_le ((d ⬝ᵥ x) • (r • p)) 0 (((f ⨯₃ g) ⬝ᵥ x) • d)
    rw [sub_zero, zero_sub, length_neg, length_smul, length_smul, length_smul] at h
    have hfirst := mul_le_mul_of_nonneg_right (abs_dot_le d x)
      (mul_nonneg (abs_nonneg r) (length_nonneg p))
    have hsecond := mul_le_mul_of_nonneg_right (abs_dot_le (f ⨯₃ g) x) (length_nonneg d)
    linarith

/-- Directions that hardly differ carry nothing far. -/
theorem length_carried_sub_self_le (hopposite : 0 < 1 + f ⬝ᵥ g) :
    length (carried f g x - x) ≤ (|f ⬝ᵥ g - 1| + length (f ⨯₃ g) +
      length (f ⨯₃ g) * length (f ⨯₃ g) / (1 + f ⬝ᵥ g)) * length x := by
  have hsplit : carried f g x - x = (f ⬝ᵥ g - 1) • x + (f ⨯₃ g) ⨯₃ x +
      ((f ⨯₃ g) ⬝ᵥ x / (1 + f ⬝ᵥ g)) • (f ⨯₃ g) := by
    rw [carried]
    module
  have hfirst := length_add_le ((f ⬝ᵥ g - 1) • x + (f ⨯₃ g) ⨯₃ x)
    (((f ⨯₃ g) ⬝ᵥ x / (1 + f ⬝ᵥ g)) • (f ⨯₃ g))
  have hsecond := length_add_le ((f ⬝ᵥ g - 1) • x) ((f ⨯₃ g) ⨯₃ x)
  have hcross := length_cross_le (f ⨯₃ g) x
  -- The last part has the product in it twice.
  have hshare : |(f ⨯₃ g) ⬝ᵥ x / (1 + f ⬝ᵥ g)| * length (f ⨯₃ g) ≤
      length (f ⨯₃ g) * length (f ⨯₃ g) / (1 + f ⬝ᵥ g) * length x := by
    rw [abs_div, abs_of_pos hopposite, div_mul_eq_mul_div, div_mul_eq_mul_div]
    refine div_le_div_of_nonneg_right ?_ hopposite.le
    have hdot := mul_le_mul_of_nonneg_right (abs_dot_le (f ⨯₃ g) x) (length_nonneg (f ⨯₃ g))
    linarith
  rw [← hsplit, length_smul] at hfirst
  rw [length_smul] at hsecond
  linarith

/-- What is carried from a direction to one that hardly differs stays where it is. So it makes
    little difference whether such a turn is taken or left out. -/
theorem length_sub_carried_le (hf : |f ⬝ᵥ f - 1| ≤ 2 ^ (-46 : ℤ)) (hlength : length f ≤ 17 / 16)
    (hx : length x ≤ 17 / 16) (h : length (f - g) ≤ 1 / 10 ^ 10) :
    length (x - carried f g x) ≤ 2 ^ (-29 : ℤ) := by
  have hcross : length (f ⨯₃ g) ≤ 17 / 16 * (1 / 10 ^ 10) := by
    have hsplit : f ⨯₃ g = -(f ⨯₃ (f - g)) := by
      rw [map_sub, cross_self, zero_sub, neg_neg]
    rw [hsplit, length_neg]
    exact (length_cross_le _ _).trans (mul_le_mul hlength h (length_nonneg _) (by norm_num))
  have hdot : |f ⬝ᵥ g - 1| ≤ 2 ^ (-46 : ℤ) + 17 / 16 * (1 / 10 ^ 10) := by
    have hsplit : f ⬝ᵥ g - 1 = (f ⬝ᵥ f - 1) - f ⬝ᵥ (f - g) := by
      rw [dotProduct_sub]
      ring
    have hproduct := (abs_dot_le f (f - g)).trans
      (mul_le_mul hlength h (length_nonneg _) (by norm_num))
    rw [hsplit]
    exact (abs_sub _ _).trans (add_le_add hf hproduct)
  -- Directions that are this near are far from opposite, and nothing small is divided by.
  have hopposite : 1 ≤ 1 + f ⬝ᵥ g := by
    have hlow := (abs_le.mp hdot).1
    norm_num at hlow
    linarith
  have hnear := length_carried_sub_self_le (x := x) (by linarith : 0 < 1 + f ⬝ᵥ g)
  have hsquare : length (f ⨯₃ g) * length (f ⨯₃ g) / (1 + f ⬝ᵥ g) ≤ 1 / 10 ^ 10 := by
    rw [div_le_iff₀ (by linarith)]
    have hproduct := mul_le_mul hcross hcross (length_nonneg _) (by norm_num)
    norm_num at hproduct ⊢
    linarith
  have hsize := mul_le_mul (add_le_add (add_le_add hdot hcross) hsquare) hx (length_nonneg _)
    (by norm_num)
  rw [← length_neg, neg_sub]
  exact hnear.trans (hsize.trans (by norm_num))

end Turned

end SolidModel
