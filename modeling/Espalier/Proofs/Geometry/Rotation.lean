import Espalier.Proofs.Geometry.Vector
import Mathlib.Tactic.LinearCombination

/-!
# Rotations in exact arithmetic

A quaternion turns vectors in a way that respects products: the product of two turns as the right
one does, and then as the left one. Over the real numbers, the quaternion made from an axis and an
angle has length one; it leaves the axis as it is, and turns what is across the axis by the angle.
If the angle is the one from `a` to `b`, both of them unit vectors across the axis, then it turns
`a` into `b`, whichever way round and also if they are opposite.

Results:
1. `normSq_mul`, `rotate_mul`: products.
2. `rotate_ofAxisAngle`: what the turn about an axis does to a vector, with the two special cases
   `rotate_ofAxisAngle_axis` and `rotate_ofAxisAngle_across`.
3. `rotate_between`: the turn from one direction across the axis to another.
-/

namespace Espalier

open scoped Exact

variable {axis a b v : Vec3 ℝ}

namespace Quat

/-! ## Products -/

theorem mul_eq (p q : Quat ℝ) : p * q =
    { x := (p.w * q.x + p.x * q.w) + (p.y * q.z - p.z * q.y)
      y := (p.w * q.y - p.x * q.z) + (p.y * q.w + p.z * q.x)
      z := (p.w * q.z + p.x * q.y) + (p.z * q.w - p.y * q.x)
      w := (p.w * q.w - p.x * q.x) + (-(p.y * q.y) - p.z * q.z) } := rfl

theorem normSq_mul (p q : Quat ℝ) : (p * q).normSq = p.normSq * q.normSq := by
  rw [mul_eq]
  dsimp [normSq]
  ring

theorem rotate_mul (p q : Quat ℝ) (v : Vec3 ℝ) : (p * q).rotate v = p.rotate (q.rotate v) := by
  rw [mul_eq]
  ext <;> dsimp [rotate, vector, Vec3.dot, Vec3.cross, Scalar.two] <;> ring

theorem rotate_smul (q : Quat ℝ) (k : ℝ) (v : Vec3 ℝ) : q.rotate (k • v) = k • q.rotate v := by
  ext <;> dsimp [rotate, vector, Vec3.dot, Vec3.cross, Scalar.two] <;> ring

theorem normalize_of_unit {q : Quat ℝ} (h : q.normSq = 1) : q.normalize = q := by
  have hroot : Scalar.sqrt q.normSq = 1 := by
    rw [h]
    exact Real.sqrt_one
  obtain ⟨x, y, z, w⟩ := q
  simp only [normalize, hroot, div_one]

/-! ## Turns about an axis -/

theorem normSq_ofAxisAngle (h : axis.dot axis = 1) (θ : ℝ) : (ofAxisAngle axis θ).normSq = 1 := by
  have hsplit : (ofAxisAngle axis θ).normSq =
      Real.sin (θ * Scalar.half) ^ 2 * axis.dot axis + Real.cos (θ * Scalar.half) ^ 2 := by
    dsimp [normSq, ofAxisAngle, ofParts, Vec3.dot, Scalar.sin, Scalar.cos]
    ring
  rw [hsplit, h, mul_one, Real.sin_sq_add_cos_sq]

/-- A turn about a unit axis: what is along the axis stays, and what is across it is turned in its
plane. -/
theorem rotate_ofAxisAngle (h : axis.dot axis = 1) (θ : ℝ) (v : Vec3 ℝ) :
    (ofAxisAngle axis θ).rotate v =
      Real.cos θ • v + ((1 - Real.cos θ) * v.dot axis) • axis + Real.sin θ • axis.cross v := by
  obtain ⟨s, hs⟩ : ∃ s, Real.sin (θ * (1 / 2)) = s := ⟨_, rfl⟩
  obtain ⟨c, hc⟩ : ∃ c, Real.cos (θ * (1 / 2)) = c := ⟨_, rfl⟩
  have hdouble : θ = 2 * (θ * (1 / 2)) := by ring
  have hcos : Real.cos θ = c * c - s * s := by
    rw [hdouble, Real.cos_two_mul', hs, hc]
    ring
  have hsin : Real.sin θ = 2 * s * c := by rw [hdouble, Real.sin_two_mul, hs, hc]
  have hone : s * s + c * c = 1 := by
    rw [← hs, ← hc]
    linear_combination Real.sin_sq_add_cos_sq (θ * (1 / 2))
  have hturn : ofAxisAngle axis θ = ofParts (s • axis) c := by rw [← hs, ← hc]; rfl
  rw [hturn, hcos, hsin]
  dsimp only [Vec3.dot] at h
  ext <;> dsimp [rotate, ofParts, vector, Vec3.dot, Vec3.cross, Scalar.two]
  · linear_combination -(s * s * v.x) * h +
      ((v.x * axis.x + v.y * axis.y + v.z * axis.z) * axis.x) * hone
  · linear_combination -(s * s * v.y) * h +
      ((v.x * axis.x + v.y * axis.y + v.z * axis.z) * axis.y) * hone
  · linear_combination -(s * s * v.z) * h +
      ((v.x * axis.x + v.y * axis.y + v.z * axis.z) * axis.z) * hone

theorem rotate_ofAxisAngle_axis (h : axis.dot axis = 1) (θ : ℝ) :
    (ofAxisAngle axis θ).rotate axis = axis := by
  rw [rotate_ofAxisAngle h, h]
  ext <;> dsimp [Vec3.cross] <;> ring

theorem rotate_ofAxisAngle_across (h : axis.dot axis = 1) (hv : v.dot axis = 0) (θ : ℝ) :
    (ofAxisAngle axis θ).rotate v = Real.cos θ • v + Real.sin θ • axis.cross v := by
  rw [rotate_ofAxisAngle h, hv]
  ext <;> dsimp [Vec3.cross] <;> ring

end Quat

namespace Vec3

/-! ## The plane across an axis -/

/-- A vector in the frame of two others and their cross product. -/
theorem gram_smul (u a b : Vec3 ℝ) : (u.dot u * a.dot a - a.dot u * a.dot u) • b =
    (a.dot b * u.dot u - b.dot u * a.dot u) • a + u.dot (a.cross b) • u.cross a +
      (b.dot u * a.dot a - a.dot b * a.dot u) • u := by
  ext <;> dsimp [dot, cross] <;> ring

/-- A vector across the axis, by its cosine and sine from a unit one across the axis. -/
theorem eq_of_across (h : axis.dot axis = 1) (ha : a.dot a = 1) (hacross : a.dot axis = 0)
    (hbcross : b.dot axis = 0) :
    b = a.dot b • a + axis.dot (a.cross b) • axis.cross a := by
  have hgram := gram_smul axis a b
  rw [h, ha, hacross, hbcross] at hgram
  calc b = (1 * 1 - 0 * 0 : ℝ) • b := by ext <;> dsimp <;> ring
    _ = _ := hgram
    _ = a.dot b • a + axis.dot (a.cross b) • axis.cross a := by ext <;> dsimp <;> ring

/-- Cosine and sine of unit vectors across the axis. -/
theorem cosine_sq_add_sine_sq (h : axis.dot axis = 1) (ha : a.dot a = 1) (hacross : a.dot axis = 0)
    (hb : b.dot b = 1) (hbcross : b.dot axis = 0) :
    a.dot b ^ 2 + axis.dot (a.cross b) ^ 2 = 1 := by
  have hdot : b.dot (a.dot b • a + axis.dot (a.cross b) • axis.cross a) =
      a.dot b ^ 2 + axis.dot (a.cross b) ^ 2 := by
    dsimp [dot, cross]
    ring
  rw [← hdot, ← eq_of_across h ha hacross hbcross, hb]

end Vec3

namespace Quat

/-- The turn about the axis by the signed angle from one direction across it to another one, in
whichever quadrant the angle is. -/
theorem rotate_between (h : axis.dot axis = 1) (ha : a.dot a = 1) (hacross : a.dot axis = 0)
    (hb : b.dot b = 1) (hbcross : b.dot axis = 0) :
    (ofAxisAngle axis (Scalar.arctan2 (axis.dot (a.cross b)) (a.dot b))).rotate a = b := by
  have hnorm : ‖(⟨a.dot b, axis.dot (a.cross b)⟩ : ℂ)‖ = 1 := by
    rw [← sq_eq_sq₀ (norm_nonneg _) zero_le_one, Complex.sq_norm, Complex.normSq_mk, one_pow]
    linear_combination Vec3.cosine_sq_add_sine_sq h ha hacross hb hbcross
  have hne : (⟨a.dot b, axis.dot (a.cross b)⟩ : ℂ) ≠ 0 := by
    rw [← norm_ne_zero_iff, hnorm]
    exact one_ne_zero
  have hcos : Real.cos (Scalar.arctan2 (axis.dot (a.cross b)) (a.dot b)) = a.dot b := by
    refine (Complex.cos_arg hne).trans ?_
    rw [hnorm, div_one]
  have hsin : Real.sin (Scalar.arctan2 (axis.dot (a.cross b)) (a.dot b)) =
      axis.dot (a.cross b) := by
    refine (Complex.sin_arg _).trans ?_
    rw [hnorm, div_one]
  rw [rotate_ofAxisAngle_across h hacross, hcos, hsin, ← Vec3.eq_of_across h ha hacross hbcross]

end Quat

end Espalier
