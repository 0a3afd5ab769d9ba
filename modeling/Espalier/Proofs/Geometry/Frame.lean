import Espalier.Geometry.Transform
import Espalier.Proofs.Scalar.Real
import Mathlib.Tactic.Ring

/-!
# Frames in exact arithmetic

A frame is used in two ways: `apply` turns a scaled point by the quaternion and moves it, and
`toMatrix` makes a matrix, which composes with others. Over the reals, they differ by a multiple of
the scaled point, and the factor is zero for a unit quaternion.

Results:
1. `transformPoint_mul`: the product of frames maps a point through one after the other.
2. `apply_eq`, `apply_eq_transformPoint`: how the two ways differ, and when they agree.
3. `apply_stuck`: what a stuck position is for.
-/

namespace Espalier

open scoped Exact

/-! ## Coordinates -/

section Coordinates

variable {α : Type} [Scalar α]

attribute [ext] Vec3

namespace Vec3

variable (a b : Vec3 α) (r : α)

@[simp] theorem add_x : (a + b).x = a.x + b.x := rfl
@[simp] theorem add_y : (a + b).y = a.y + b.y := rfl
@[simp] theorem add_z : (a + b).z = a.z + b.z := rfl
@[simp] theorem sub_x : (a - b).x = a.x - b.x := rfl
@[simp] theorem sub_y : (a - b).y = a.y - b.y := rfl
@[simp] theorem sub_z : (a - b).z = a.z - b.z := rfl
@[simp] theorem mul_x : (a * b).x = a.x * b.x := rfl
@[simp] theorem mul_y : (a * b).y = a.y * b.y := rfl
@[simp] theorem mul_z : (a * b).z = a.z * b.z := rfl
@[simp] theorem smul_x : (r • a).x = a.x * r := rfl
@[simp] theorem smul_y : (r • a).y = a.y * r := rfl
@[simp] theorem smul_z : (r • a).z = a.z * r := rfl

end Vec3

namespace Vec4

variable (a b : Vec4 α) (r : α)

@[simp] theorem add_x : (a + b).x = a.x + b.x := rfl
@[simp] theorem add_y : (a + b).y = a.y + b.y := rfl
@[simp] theorem add_z : (a + b).z = a.z + b.z := rfl
@[simp] theorem smul_x : (r • a).x = a.x * r := rfl
@[simp] theorem smul_y : (r • a).y = a.y * r := rfl
@[simp] theorem smul_z : (r • a).z = a.z * r := rfl

end Vec4

end Coordinates

/-! ## Products of frames -/

namespace Mat4

/-- The matrix maps points to points: its last row is that of the identity. -/
structure IsFrame (m : Mat4 ℝ) : Prop where
  xAxis : m.xAxis.w = 0
  yAxis : m.yAxis.w = 0
  zAxis : m.zAxis.w = 0
  wAxis : m.wAxis.w = 1

theorem mul_eq (m n : Mat4 ℝ) : m * n =
    ⟨m.mulVec n.xAxis, m.mulVec n.yAxis, m.mulVec n.zAxis, m.mulVec n.wAxis⟩ := rfl

/-- The product maps a point through the right factor, then through the left one. -/
theorem transformPoint_mul (m : Mat4 ℝ) {n : Mat4 ℝ} (hn : n.IsFrame) (p : Vec3 ℝ) :
    (m * n).transformPoint p = m.transformPoint (n.transformPoint p) := by
  obtain ⟨hx, hy, hz, hw⟩ := hn
  rw [mul_eq]
  ext <;> dsimp [transformPoint, mulVec, Vec4.toVec3] <;> simp only [hx, hy, hz, hw] <;> ring

end Mat4

namespace Transform

theorem toMatrix_isFrame (t : Transform ℝ) : t.toMatrix.IsFrame where
  xAxis := zero_mul t.scale.x
  yAxis := zero_mul t.scale.y
  zAxis := zero_mul t.scale.z
  wAxis := rfl

/-- The two ways differ by what the square of the norm is off one, times the scaled point. -/
theorem apply_eq (t : Transform ℝ) (v : Vec3 ℝ) :
    t.apply v = t.toMatrix.transformPoint v + (t.rotation.normSq - 1) • (t.scale * v) := by
  obtain ⟨p, ⟨x, y, z, w⟩, s⟩ := t
  ext <;>
    dsimp [apply, toMatrix, Mat4.ofScaleRotationPosition, Mat4.transformPoint, Quat.rotate,
      Quat.vector, Quat.normSq, Vec3.dot, Vec3.cross, Scalar.two, Vec4.toVec3, Vec4.ofVec3] <;>
    ring

/-- A unit rotation acts on a point as its matrix does. -/
theorem apply_eq_transformPoint (t : Transform ℝ) (hunit : t.rotation.normSq = 1) (v : Vec3 ℝ) :
    t.apply v = t.toMatrix.transformPoint v := by
  rw [apply_eq, hunit]
  ext <;> dsimp <;> ring

/-- In the stuck position, the frame has its local position on the target. -/
theorem apply_stuck (t : Transform ℝ) (this target : Vec3 ℝ) :
    { t with position := t.stuckPosition this target }.apply this = target := by
  rw [apply, stuckPosition]
  ext <;> dsimp <;> ring

end Transform

end Espalier
