import SolidModel.Proofs.Vec3.Length

/-!
# Products

How exact the computed products of vectors are.

The products of two vectors are sums of products of their components. For vectors of moderate size
the errors are a few units in the last place of the largest number there can be. The products
themselves may be much smaller than that, since sums cancel, and then nothing may be left of them.

## Theorems

* `Vec3.near_dot`: The computed scalar product.
* `Vec3.near_cross`, `Vec3.length_cross_sub_le`: The computed vector product.
-/

namespace SolidModel

open scoped Matrix

namespace Vec3

variable {a b : Vec3}

/-- The computed product of vectors of moderate size. -/
theorem near_dot {m n : ℤ} (ha : a.Inside (2 ^ m)) (hb : b.Inside (2 ^ n)) (hm : 0 ≤ m)
    (hm' : m ≤ 100) (hn : 0 ≤ n) (hn' : n ≤ 100) :
    Near (a.dot b) (a.real ⬝ᵥ b.real) (m + n + 2) (2 ^ (-50 : ℤ)) := by
  have hmul {s t : Float} (hs : s.isFinite = true) (ht : t.isFinite = true)
      (hs' : |value s| ≤ 2 ^ m) (ht' : |value t| ≤ 2 ^ n) :
      Near (s * t) (value s * value t) (m + n) (2 ^ (-52 : ℤ)) :=
    ((Near.self hs hs').mul (Near.self ht ht') (by omega) (by omega) (by norm_num)
      (by norm_num)).weaken (by norm_num)
  have hx := hmul ha.finite.1 hb.finite.1 ha.x hb.x
  have hy := hmul ha.finite.2.1 hb.finite.2.1 ha.y hb.y
  have hz := hmul ha.finite.2.2 hb.finite.2.2 ha.z hb.z
  have hsum := hx.add hy (by omega) (by omega) (by norm_num) (by norm_num)
  have hdot := hsum.add (hz.raise (by norm_num) (by omega : m + n ≤ m + n + 1)) (by omega)
    (by omega) (by norm_num) (by norm_num)
  rw [show m + n + 2 = m + n + 1 + 1 by ring, Matrix.vec3_dotProduct]
  exact hdot.weaken (by norm_num)

/-- The components of a computed vector product of vectors of moderate size. -/
theorem near_cross (ha : a.Inside (2 ^ (1 : ℤ))) (hb : b.Inside (2 ^ (1 : ℤ))) :
    (a.cross b).Finite ∧ ∀ i, |(a.cross b).real i - (a.real ⨯₃ b.real) i| ≤ 2 ^ (-48 : ℤ) := by
  -- Every component is a minor, and all of them are off by the same bound.
  have hminor {s t u w : Float} (hs : Near s (value s) 1 0) (ht : Near t (value t) 1 0)
      (hu : Near u (value u) 1 0) (hw : Near w (value w) 1 0) :
      (s * t - u * w).isFinite = true ∧
        |value (s * t - u * w) - (value s * value t - value u * value w)| ≤ 2 ^ (-48 : ℤ) := by
    have h := (hs.mul ht (by norm_num) (by norm_num) (by norm_num) (by norm_num)).sub
      (hu.mul hw (by norm_num) (by norm_num) (by norm_num) (by norm_num)) (by norm_num)
      (by norm_num) (by norm_num) (by norm_num)
    exact ⟨h.finite, h.error.trans (by norm_num)⟩
  have hax := Near.self ha.finite.1 ha.x
  have hay := Near.self ha.finite.2.1 ha.y
  have haz := Near.self ha.finite.2.2 ha.z
  have hbx := Near.self hb.finite.1 hb.x
  have hby := Near.self hb.finite.2.1 hb.y
  have hbz := Near.self hb.finite.2.2 hb.z
  have hx := hminor hay hbz haz hby
  have hy := hminor haz hbx hax hbz
  have hz := hminor hax hby hay hbx
  refine ⟨⟨hx.1, hy.1, hz.1⟩, fun i => ?_⟩
  rw [cross_apply]
  fin_cases i
  · exact hx.2
  · exact hy.2
  · exact hz.2

theorem length_cross_sub_le (ha : a.Inside (2 ^ (1 : ℤ))) (hb : b.Inside (2 ^ (1 : ℤ))) :
    length ((a.cross b).real - a.real ⨯₃ b.real) ≤ 2 ^ (-47 : ℤ) := by
  have h := length_le_of_abs_le (x := (a.cross b).real - a.real ⨯₃ b.real) (near_cross ha hb).2
  exact h.trans (by norm_num)

end Vec3

end SolidModel
