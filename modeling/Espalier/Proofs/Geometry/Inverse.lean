import Espalier.Proofs.Geometry.Frame
import Mathlib.Tactic.NormNum

/-!
# Inverses in exact arithmetic

The inverse of a matrix is computed from its minors: the transposed cofactors, divided by the
determinant. Over the real numbers, this is the inverse of every matrix whose determinant is not
zero, on both sides, and the inverse of a frame maps points to points as the frame does.

Results:
1. `mul_adjugate`, `adjugate_mul`: a matrix and its transposed cofactors.
2. `mul_inverse`, `inverse_mul`: the inverse on either side.
3. `transformPoint_inverse`, `inverse_transformPoint`: a point into a frame and back, either way.
-/

namespace Espalier

open scoped Exact

/-! ## Coordinates -/

section Coordinates

variable {α : Type} [Scalar α]

attribute [ext] Vec4 Mat4

namespace Vec4

variable (a b : Vec4 α)

@[simp] theorem sub_x : (a - b).x = a.x - b.x := rfl
@[simp] theorem sub_y : (a - b).y = a.y - b.y := rfl
@[simp] theorem sub_z : (a - b).z = a.z - b.z := rfl
@[simp] theorem sub_w : (a - b).w = a.w - b.w := rfl
@[simp] theorem mul_x : (a * b).x = a.x * b.x := rfl
@[simp] theorem mul_y : (a * b).y = a.y * b.y := rfl
@[simp] theorem mul_z : (a * b).z = a.z * b.z := rfl
@[simp] theorem mul_w : (a * b).w = a.w * b.w := rfl
@[simp] theorem add_w : (a + b).w = a.w + b.w := rfl
@[simp] theorem smul_w (r : α) : (r • a).w = a.w * r := rfl

end Vec4

end Coordinates

namespace Mat4

/-! ## Cofactors -/

section Cofactors

variable {α : Type} [Scalar α]

/-- The cofactors of a matrix, transposed. -/
def adjugate (m : Mat4 α) : Mat4 α :=
  let f0 := m.minors Vec4.z Vec4.w
  let f1 := m.minors Vec4.y Vec4.w
  let f2 := m.minors Vec4.y Vec4.z
  let f3 := m.minors Vec4.x Vec4.w
  let f4 := m.minors Vec4.x Vec4.z
  let f5 := m.minors Vec4.x Vec4.y
  let v0 := m.lanes Vec4.x
  let v1 := m.lanes Vec4.y
  let v2 := m.lanes Vec4.z
  let v3 := m.lanes Vec4.w
  let even : Vec4 α := ⟨1, -1, 1, -1⟩
  let odd : Vec4 α := ⟨-1, 1, -1, 1⟩
  ⟨even * ((v1 * f0 - v2 * f1) + v3 * f2), odd * ((v0 * f0 - v2 * f3) + v3 * f4),
    even * ((v0 * f1 - v1 * f3) + v3 * f5), odd * ((v0 * f2 - v1 * f4) + v2 * f5)⟩

/-- The matrix with every entry multiplied by a number. -/
def scaled (r : α) (m : Mat4 α) : Mat4 α :=
  ⟨r • m.xAxis, r • m.yAxis, r • m.zAxis, r • m.wAxis⟩

end Cofactors

theorem mul_adjugate (m : Mat4 ℝ) : m * m.adjugate = scaled m.determinant identity := by
  rw [mul_eq]
  ext <;> dsimp [adjugate, determinant, Vec4.dot, minors, lanes, mulVec, scaled, identity] <;> ring

theorem adjugate_mul (m : Mat4 ℝ) : m.adjugate * m = scaled m.determinant identity := by
  rw [mul_eq]
  ext <;> dsimp [adjugate, determinant, Vec4.dot, minors, lanes, mulVec, scaled, identity] <;> ring

/-- The cofactors of the first column, which the inverse divides by, make up the determinant. -/
theorem exists_inverse_eq {m : Mat4 ℝ} (h : m.determinant ≠ 0) :
    ∃ r : ℝ, m.determinant * r = 1 ∧ m.inverse = scaled r m.adjugate := by
  have hdet : m.xAxis.dot ⟨m.adjugate.xAxis.x, m.adjugate.yAxis.x, m.adjugate.zAxis.x,
      m.adjugate.wAxis.x⟩ = m.determinant := by
    dsimp [adjugate, determinant, Vec4.dot, minors, lanes]
    ring
  refine ⟨1 / m.determinant, mul_one_div_cancel h, ?_⟩
  rw [← hdet]
  rfl

/-! ## Inverses -/

theorem scaled_scaled (a b : ℝ) (m : Mat4 ℝ) : scaled a (scaled b m) = scaled (b * a) m := by
  ext <;> exact mul_assoc _ _ _

theorem scaled_one (m : Mat4 ℝ) : scaled 1 m = m := by
  ext <;> exact mul_one _

theorem mul_scaled (r : ℝ) (m n : Mat4 ℝ) : m * scaled r n = scaled r (m * n) := by
  rw [mul_eq, mul_eq]
  ext <;> dsimp [scaled, mulVec] <;> ring

theorem scaled_mul (r : ℝ) (m n : Mat4 ℝ) : scaled r m * n = scaled r (m * n) := by
  rw [mul_eq, mul_eq]
  ext <;> dsimp [scaled, mulVec] <;> ring

variable {m : Mat4 ℝ}

theorem mul_inverse (h : m.determinant ≠ 0) : m * m.inverse = identity := by
  obtain ⟨r, hr, hinverse⟩ := exists_inverse_eq h
  rw [hinverse, mul_scaled, mul_adjugate, scaled_scaled, hr, scaled_one]

theorem inverse_mul (h : m.determinant ≠ 0) : m.inverse * m = identity := by
  obtain ⟨r, hr, hinverse⟩ := exists_inverse_eq h
  rw [hinverse, scaled_mul, adjugate_mul, scaled_scaled, hr, scaled_one]

/-! ## Frames -/

theorem identity_isFrame : (identity : Mat4 ℝ).IsFrame where
  xAxis := rfl
  yAxis := rfl
  zAxis := rfl
  wAxis := rfl

/-- The last row of a frame takes over the last row of what it is multiplied with. -/
theorem IsFrame.mul_iff (hm : m.IsFrame) {n : Mat4 ℝ} : (m * n).IsFrame ↔ n.IsFrame := by
  obtain ⟨hx, hy, hz, hw⟩ := hm
  have hrow : ∀ v : Vec4 ℝ, (m.mulVec v).w = v.w := fun v => by
    dsimp [mulVec]
    rw [hx, hy, hz, hw]
    ring
  rw [mul_eq]
  constructor
  · rintro ⟨hx', hy', hz', hw'⟩
    exact ⟨(hrow _).symm.trans hx', (hrow _).symm.trans hy', (hrow _).symm.trans hz',
      (hrow _).symm.trans hw'⟩
  · rintro ⟨hx', hy', hz', hw'⟩
    exact ⟨(hrow _).trans hx', (hrow _).trans hy', (hrow _).trans hz', (hrow _).trans hw'⟩

theorem IsFrame.inverse (hm : m.IsFrame) (h : m.determinant ≠ 0) : m.inverse.IsFrame :=
  hm.mul_iff.mp ((mul_inverse h).symm ▸ identity_isFrame)

theorem identity_transformPoint (p : Vec3 ℝ) : (identity : Mat4 ℝ).transformPoint p = p := by
  ext <;> dsimp [transformPoint, identity, Vec4.toVec3] <;> ring

theorem transformPoint_inverse (hm : m.IsFrame) (h : m.determinant ≠ 0) (p : Vec3 ℝ) :
    m.transformPoint (m.inverse.transformPoint p) = p := by
  rw [← transformPoint_mul m (hm.inverse h), mul_inverse h, identity_transformPoint]

theorem inverse_transformPoint (hm : m.IsFrame) (h : m.determinant ≠ 0) (p : Vec3 ℝ) :
    m.inverse.transformPoint (m.transformPoint p) = p := by
  rw [← transformPoint_mul m.inverse hm, inverse_mul h, identity_transformPoint]

end Mat4

end Espalier
