import SolidModel.Proofs.Vec3.Products
import SolidModel.Proofs.Vec3.Trigonometry

/-!
# Turns

What a rotation does to the length of a vector.

A rotation is computed by a formula of three terms. If the pole has length one and sine and cosine
belong to one angle, the formula keeps lengths. With floats none of this is exact. The pole has
been divided by a computed length, sine and cosine come from a platform that promises no last
digit, and every operation rounds. But the formula says by how much the length is off in terms of
how much the pole and the angle are off, so that the errors of all these add up to very little.

In particular a rotation succeeds. It does not run out of range, and a vector that is not null does
not become null.

## Theorems

* `Vec3.rotate_near`: A rotation succeeds, and it is an exact turn up to an error.
* `Vec3.rotate_dot`: A rotation keeps products.
* `Vec3.Normed.rotate`, `Vec3.Inside.rotate`: Directions and points under a rotation.
-/

namespace SolidModel

open scoped Matrix

namespace Vec3

/-- The computed formula of a rotation, for one coordinate. -/
theorem near_turned {t a b c y z d k s : Float} {n : ℤ} {dot : ℝ} (ht : t.isFinite = true)
    (hy : y.isFinite = true) (hz : z.isFinite = true) (ha : a.isFinite = true)
    (hb : b.isFinite = true) (hc : c.isFinite = true) (hk : k.isFinite = true)
    (hs : s.isFinite = true) (ht' : |value t| ≤ 2 ^ n) (hy' : |value y| ≤ 2 ^ n)
    (hz' : |value z| ≤ 2 ^ n) (ha' : |value a| ≤ 2 ^ (1 : ℤ)) (hb' : |value b| ≤ 2 ^ (1 : ℤ))
    (hc' : |value c| ≤ 2 ^ (1 : ℤ)) (hk' : |value k| ≤ 2 ^ (1 : ℤ)) (hs' : |value s| ≤ 2 ^ (1 : ℤ))
    (hd : Near d dot (n + 3) (2 ^ (-50 : ℤ))) (hlow : 0 ≤ n) (hhigh : n ≤ 100) :
    Near (t * k + (b * z - c * y) * s + a * (d * (1.0 - k)))
      (value t * value k + (value b * value z - value c * value y) * value s +
        value a * (dot * (1 - value k))) (n + 7) (2 ^ (-48 : ℤ)) := by
  -- The formula is followed from the inside out, each operation with its own rounding.
  have halong := (Near.self ht ht').mul (Near.self hk hk') (by omega) (by omega) (by norm_num)
    (by norm_num)
  have hleft := (Near.self hb hb').mul (Near.self hz hz') (by omega) (by omega) (by norm_num)
    (by norm_num)
  have hright := (Near.self hc hc').mul (Near.self hy hy') (by omega) (by omega) (by norm_num)
    (by norm_num)
  have hcross := hleft.sub hright (by omega) (by omega) (by norm_num) (by norm_num)
  have hacross := hcross.mul (Near.self hs hs') (by omega) (by omega) (by norm_num) (by norm_num)
  have hone : Near 1.0 1 1 0 := by
    have h := Near.self (x := 1.0) (n := 1) rfl (by rw [value_one]; norm_num)
    rwa [value_one] at h
  have hrest := hone.sub (Near.self hk hk') (by norm_num) (by norm_num) (by norm_num) (by norm_num)
  have hpole := (Near.self ha ha').mul (hd.mul hrest (by omega) (by omega) (by norm_num)
    (by norm_num)) (by omega) (by omega) (by norm_num) (by norm_num)
  -- Summands have to be brought to one range before they are added.
  have hfirst := (halong.raise (by norm_num) (by omega : n + 1 ≤ n + 3)).add
    (hacross.raise (by norm_num) (by omega : 1 + n + 1 + 1 ≤ n + 3)) (by omega) (by omega)
    (by norm_num) (by norm_num)
  have hturned := (hfirst.raise (by norm_num) (by omega : n + 3 + 1 ≤ n + 6)).add
    (hpole.raise (by norm_num) (by omega : 1 + (n + 3 + (1 + 1)) ≤ n + 6)) (by omega) (by omega)
    (by norm_num) (by norm_num)
  rw [show n + 7 = n + 6 + 1 by ring]
  exact hturned.weaken (by norm_num)

theorem value_radiansPerDegree : value radiansPerDegree = 5030569068109113 * 2 ^ (-58 : ℤ) := by
  have h : parts radiansPerDegree = .finite .positive 5030569068109113 (-58) (by decide) := rfl
  rw [value, h, valueOf, signFactor, one_mul]
  norm_cast

/-- Sine and cosine belong to one angle, as exactly as they are computed. -/
theorem abs_sq_add_sq_sub_one_le {k s θ ε : ℝ} (hk : |k - Real.cos θ| ≤ ε)
    (hs : |s - Real.sin θ| ≤ ε) :
    |k ^ 2 + s ^ 2 - 1| ≤ 2 * (ε * (2 * 1 + ε)) := by
  have hk' := abs_sq_sub_sq_le (Real.abs_cos_le_one θ) hk
  have hs' := abs_sq_sub_sq_le (Real.abs_sin_le_one θ) hs
  have htriangle := abs_add_le (k ^ 2 - Real.cos θ ^ 2) (s ^ 2 - Real.sin θ ^ 2)
  rw [show k ^ 2 - Real.cos θ ^ 2 + (s ^ 2 - Real.sin θ ^ 2) =
    k ^ 2 + s ^ 2 - (Real.sin θ ^ 2 + Real.cos θ ^ 2) by ring, Real.sin_sq_add_cos_sq] at htriangle
  linarith

variable {v v' w w' pole : Vec3} {degrees : Float} {n : ℤ} {ε : ℝ}

theorem isFinite_radians (hdegrees : degrees.isFinite = true)
    (hdegrees' : |value degrees| ≤ 2 ^ (8 : ℤ)) :
    (degrees * radiansPerDegree).isFinite = true := by
  have hsmall : Near radiansPerDegree (value radiansPerDegree) 0 0 := by
    refine Near.self rfl ?_
    rw [value_radiansPerDegree, abs_of_nonneg (by positivity)]
    norm_num
  exact ((Near.self hdegrees hdegrees').mul hsmall (by norm_num) (by norm_num) (by norm_num)
    (by norm_num)).finite

theorem abs_le_two_of_near {r q : ℝ} (hr : |r - q| ≤ 2 ^ (-45 : ℤ)) (hq : |q| ≤ 1) :
    |r| ≤ 2 ^ (1 : ℤ) := by
  have htriangle := abs_sub_abs_le_abs_sub r q
  norm_num at hr ⊢
  linarith

/-- A rotation succeeds, and it is the exact turn up to an error. The exact turn is that by the
    cosine and the sine that have been computed, whatever angle they belong to, so that nothing is
    said here about how good they are. -/
theorem rotate_near [t : Trigonometry] (accurate : t.Accurate) (hv : v.Inside (2 ^ n))
    (hlow : 0 ≤ n) (hhigh : n ≤ 100) (hpole : pole.Normed (2 ^ (-44 : ℤ)))
    (hdegrees : degrees.isFinite = true) (hdegrees' : |value degrees| ≤ 2 ^ (8 : ℤ)) :
    ∃ w, v.rotate degrees pole = .ok w ∧ w.Finite ∧
      length (w.real - turned (value (t.cos (degrees * radiansPerDegree)))
        (value (t.sin (degrees * radiansPerDegree))) pole.real v.real) ≤ 2 ^ (-40 : ℤ) * 2 ^ n := by
  rcases accurate.sin _ (isFinite_radians hdegrees hdegrees') with ⟨hs, hs'⟩
  rcases accurate.cos _ (isFinite_radians hdegrees hdegrees') with ⟨hk, hk'⟩
  have hs'' := abs_le_two_of_near hs' (Real.abs_sin_le_one _)
  have hk'' := abs_le_two_of_near hk' (Real.abs_cos_le_one _)
  have hinside := hpole.abs_le_two (by norm_num)
  have hdot := near_dot hinside hv (by norm_num) (by norm_num) hlow hhigh
  rw [show 1 + n + 2 = n + 3 by ring] at hdot
  have hrotate : v.rotate degrees pole = (v.times (t.cos (degrees * radiansPerDegree)) +
      (pole.cross v).times (t.sin (degrees * radiansPerDegree)) +
      pole.times (pole.dot v * (1.0 - t.cos (degrees * radiansPerDegree)))).checked := rfl
  generalize t.sin (degrees * radiansPerDegree) = s at *
  generalize t.cos (degrees * radiansPerDegree) = k at *
  -- The components are one formula, with the axes passed on in turn.
  have hx := near_turned hv.finite.1 hv.finite.2.1 hv.finite.2.2 hinside.finite.1
    hinside.finite.2.1 hinside.finite.2.2 hk hs hv.x hv.y hv.z hinside.x hinside.y
    hinside.z hk'' hs'' hdot hlow hhigh
  have hy := near_turned hv.finite.2.1 hv.finite.2.2 hv.finite.1 hinside.finite.2.1
    hinside.finite.2.2 hinside.finite.1 hk hs hv.y hv.z hv.x hinside.y hinside.z hinside.x hk'' hs''
    hdot hlow hhigh
  have hz := near_turned hv.finite.2.2 hv.finite.1 hv.finite.2.1 hinside.finite.2.2
    hinside.finite.1 hinside.finite.2.1 hk hs hv.z hv.x hv.y hinside.z hinside.x hinside.y hk'' hs''
    hdot hlow hhigh
  have hfinite :
      (v.times k + (pole.cross v).times s + pole.times (pole.dot v * (1.0 - k))).Finite :=
    ⟨hx.finite, hy.finite, hz.finite⟩
  -- A vector is at most twice as long as the largest of its components.
  have herror : (2 : ℝ) ^ (-40 : ℤ) * 2 ^ n = 2 * (2 ^ (-48 : ℤ) * 2 ^ (n + 7)) := by
    rw [zpow_add₀ two_ne_zero]
    norm_num
    ring
  refine ⟨_, hrotate.trans hfinite.checked, hfinite, ?_⟩
  rw [herror]
  refine length_le_of_abs_le fun i => ?_
  rw [Pi.sub_apply, turned_eq]
  fin_cases i
  · exact hx.error
  · exact hy.error
  · exact hz.error

/-- A rotation keeps products, and with them lengths and right angles. The error grows with the
    vectors, and with the square of the bound on their components. -/
theorem rotate_dot [t : Trigonometry] (accurate : t.Accurate) (hv : v.Inside (2 ^ n))
    (hv' : v'.Inside (2 ^ n)) (hlow : 0 ≤ n) (hhigh : n ≤ 100) (hpole : pole.Normed (2 ^ (-44 : ℤ)))
    (hdegrees : degrees.isFinite = true) (hdegrees' : |value degrees| ≤ 2 ^ (8 : ℤ))
    (hw : v.rotate degrees pole = .ok w) (hw' : v'.rotate degrees pole = .ok w') :
    |w.real ⬝ᵥ w'.real - v.real ⬝ᵥ v'.real| ≤ 2 ^ (-39 : ℤ) * (length v.real * length v'.real +
      2 ^ n * (length v.real + length v'.real)) + 2 ^ (-79 : ℤ) * (2 ^ n) ^ 2 := by
  rcases rotate_near accurate hv hlow hhigh hpole hdegrees hdegrees' with ⟨_, h, _, hnear⟩
  rcases rotate_near accurate hv' hlow hhigh hpole hdegrees hdegrees' with ⟨_, h', _, hnear'⟩
  cases hw.symm.trans h
  cases hw'.symm.trans h'
  rcases accurate.sin _ (isFinite_radians hdegrees hdegrees') with ⟨_, hs⟩
  rcases accurate.cos _ (isFinite_radians hdegrees hdegrees') with ⟨_, hk⟩
  have hangle := abs_sq_add_sq_sub_one_le hk hs
  have hs' := (abs_le_two_of_near hs (Real.abs_sin_le_one _)).trans (by norm_num : _ ≤ (2 : ℝ))
  have hk' := (abs_le_two_of_near hk (Real.abs_cos_le_one _)).trans (by norm_num : _ ≤ (2 : ℝ))
  have hunit : (0 : ℝ) < 2 ^ n := zpow_pos two_pos n
  have hlength := length_nonneg v.real
  have hlength' := length_nonneg v'.real
  have hexact := abs_turned_dot_turned_sub_le (x := v.real) (y := v'.real) hpole.near_real
    (by norm_num) hangle hk' hs'
  have hturned := length_turned_le (x := v.real) hpole.near_real (by norm_num) hangle hk' hs'
    (by norm_num)
  have hturned' := length_turned_le (x := v'.real) hpole.near_real (by norm_num) hangle hk' hs'
    (by norm_num)
  generalize turned _ _ pole.real v.real = x at *
  generalize turned _ _ pole.real v'.real = x' at *
  generalize (2 : ℝ) ^ n = unit at *
  -- What is left is an exact turn, which keeps the product, and two errors around it.
  have hw := length_sub_le w'.real x' 0
  rw [sub_zero, sub_zero] at hw
  have herror := abs_dot_sub_dot_le x x' w.real w'.real
  have hfirst := mul_le_mul hnear (hw.trans (add_le_add hnear' hturned')) (length_nonneg _)
    (by positivity)
  have hsecond := mul_le_mul hturned hnear' (length_nonneg _) (by linarith)
  have hsum := abs_sub_le (w.real ⬝ᵥ w'.real) (x ⬝ᵥ x') (v.real ⬝ᵥ v'.real)
  have hsizes := mul_nonneg hlength hlength'
  have hshare := mul_nonneg hunit.le hlength
  have hshare' := mul_nonneg hunit.le hlength'
  have hsq := sq_nonneg unit
  norm_num at hfirst hsecond hexact ⊢
  linarith

/-- For directions, that is a few units in the last place and the error of the functions. -/
theorem Normed.rotate_dot [t : Trigonometry] (accurate : t.Accurate) (hv : v.Normed ε)
    (hv' : v'.Normed ε) (hε : ε ≤ 1 / 16) (hpole : pole.Normed (2 ^ (-44 : ℤ)))
    (hdegrees : degrees.isFinite = true) (hdegrees' : |value degrees| ≤ 2 ^ (8 : ℤ))
    (hw : v.rotate degrees pole = .ok w) (hw' : v'.rotate degrees pole = .ok w') :
    |w.real ⬝ᵥ w'.real - v.real ⬝ᵥ v'.real| ≤ 2 ^ (-36 : ℤ) := by
  have hnear :=
    Vec3.rotate_dot accurate (hv.abs_le_two (by linarith)) (hv'.abs_le_two (by linarith))
    (by norm_num) (by norm_num) hpole hdegrees hdegrees' hw hw'
  have hlength := hv.length_le.trans (add_le_add_right hε 1)
  have hlength' := hv'.length_le.trans (add_le_add_right hε 1)
  have hproduct := mul_le_mul hlength hlength' (length_nonneg _) (by norm_num)
  norm_num at hnear hproduct ⊢
  linarith

/-- A turn keeps a direction one. The error in its length grows with every turn, but only by a
    little, and an alignment takes two. -/
theorem Normed.rotate [t : Trigonometry] (accurate : t.Accurate) (hv : v.Normed ε) (hε : ε ≤ 1 / 16)
    (hpole : pole.Normed (2 ^ (-44 : ℤ))) (hdegrees : degrees.isFinite = true)
    (hdegrees' : |value degrees| ≤ 2 ^ (8 : ℤ)) :
    ∃ w, v.rotate degrees pole = .ok w ∧ w.Normed (ε + 2 ^ (-36 : ℤ)) := by
  rcases rotate_near accurate (hv.abs_le_two (by linarith)) (by norm_num) (by norm_num)
    hpole hdegrees hdegrees' with ⟨w, hw, hfinite, _⟩
  have hnear := hv.rotate_dot accurate hv hε hpole hdegrees hdegrees' hw hw
  rw [← square_eq, ← square_eq] at hnear
  refine ⟨w, hw, hfinite, ?_⟩
  have htriangle := abs_sub_le w.square v.square 1
  linarith [hv.near]

/-- A turn carries a point less than twice as far away. -/
theorem Inside.rotate [t : Trigonometry] (accurate : t.Accurate) (hv : v.Inside (2 ^ n))
    (hlow : 0 ≤ n) (hhigh : n ≤ 100) (hpole : pole.Normed (2 ^ (-44 : ℤ)))
    (hdegrees : degrees.isFinite = true) (hdegrees' : |value degrees| ≤ 2 ^ (8 : ℤ)) :
    ∃ w, v.rotate degrees pole = .ok w ∧ w.Inside (2 ^ (n + 1)) := by
  rcases rotate_near accurate hv hlow hhigh hpole hdegrees hdegrees' with ⟨w, hw, hfinite, _⟩
  -- Turns keep products, and the square of the length is one.
  have hnear := rotate_dot accurate hv hv hlow hhigh hpole hdegrees hdegrees' hw hw
  rw [← square_eq, ← square_eq] at hnear
  have hsize := hv.square_le
  have hlength := hv.length_le
  have hproduct := mul_le_mul hlength hlength (length_nonneg _) (by positivity)
  have hshare := mul_le_mul_of_nonneg_left hlength (by positivity : (0 : ℝ) ≤ 2 ^ n)
  have hnear' := abs_le.mp hnear
  have hdouble : ((2 : ℝ) ^ (n + 1)) ^ 2 = 4 * (2 ^ n) ^ 2 := by
    rw [zpow_add_one₀ two_ne_zero]
    ring
  have hsquare : w.square ≤ (2 ^ (n + 1)) ^ 2 := by
    have hpos := sq_nonneg ((2 : ℝ) ^ n)
    rw [hdouble]
    norm_num at hnear'
    linarith
  have hbound {r : ℝ} (hr : r ^ 2 ≤ w.square) : |r| ≤ 2 ^ (n + 1) :=
    abs_le_of_sq_le_sq (hr.trans hsquare) (by positivity)
  rcases w.sq_le_square with ⟨hx, hy, hz⟩
  exact ⟨w, hw, hfinite, hbound hx, hbound hy, hbound hz⟩

end Vec3

end SolidModel
