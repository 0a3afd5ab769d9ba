import Espalier.Proofs.Geometry.Frame
import Mathlib.Tactic.FieldSimp
import Mathlib.Tactic.Linarith

/-!
# Vectors in exact arithmetic

Over the real numbers, every vector but zero has a direction, and splits into a part along a given
axis and a part across it. Rounding spoils both: an executable vector may be too short or too long
to have a direction, and may have a part across an axis that it lies on.

Results:
1. `dot_self_eq_zero`: the vectors without length.
2. `normalize?_eq_none_iff`, `exists_normalize?`: the vectors without a direction, and the direction
   of all others.
3. `rejection_dot`, `rejection_eq_zero_iff`: the part of a vector across an axis, and when there is
   none.
-/

namespace Espalier.Vec3

open scoped Exact

variable {u v w : Vec3 ℝ}

/-! ## Lengths -/

theorem dot_self_nonneg (v : Vec3 ℝ) : 0 ≤ v.dot v :=
  add_nonneg (add_nonneg (mul_self_nonneg v.x) (mul_self_nonneg v.y)) (mul_self_nonneg v.z)

theorem dot_self_eq_zero : v.dot v = 0 ↔ v = zero := by
  constructor
  · intro h
    have hx := mul_self_nonneg v.x
    have hy := mul_self_nonneg v.y
    have hz := mul_self_nonneg v.z
    have hsum : v.x * v.x + v.y * v.y + v.z * v.z = 0 := h
    ext
    · exact mul_self_eq_zero.mp (by linarith)
    · exact mul_self_eq_zero.mp (by linarith)
    · exact mul_self_eq_zero.mp (by linarith)
  · rintro rfl
    show (0 : ℝ) * 0 + 0 * 0 + 0 * 0 = 0
    ring

theorem dot_self_pos (h : v ≠ zero) : 0 < v.dot v :=
  lt_of_le_of_ne (dot_self_nonneg v) fun h0 => h (dot_self_eq_zero.mp h0.symm)

theorem sub_eq_zero_iff : u - v = zero ↔ u = v := by
  constructor
  · intro h
    ext
    · exact sub_eq_zero.mp (congrArg Vec3.x h)
    · exact sub_eq_zero.mp (congrArg Vec3.y h)
    · exact sub_eq_zero.mp (congrArg Vec3.z h)
  · rintro rfl
    ext <;> exact sub_self _

/-! ## Directions -/

/-- Every vector but zero has a direction: a unit vector that is a positive multiple of it. -/
theorem exists_normalize? (h : v ≠ zero) :
    ∃ k : ℝ, 0 < k ∧ v.normalize? = some (k • v) ∧ (k • v).dot (k • v) = 1 := by
  have hlength : 0 < v.length := Real.sqrt_pos.mpr (dot_self_pos h)
  have hpos : 0 < 1 / v.length := one_div_pos.mpr hlength
  refine ⟨1 / v.length, hpos, if_pos (decide_eq_true hpos), ?_⟩
  have hsquare : v.length * v.length = v.dot v := Real.mul_self_sqrt (dot_self_nonneg v)
  calc ((1 / v.length) • v).dot ((1 / v.length) • v)
      = v.dot v / (v.length * v.length) := by
        dsimp [dot]
        field_simp
    _ = 1 := by rw [hsquare, div_self (dot_self_pos h).ne']

theorem normalize?_eq_none_iff : v.normalize? = none ↔ v = zero := by
  constructor
  · intro h
    by_contra hv
    obtain ⟨k, -, hsome, -⟩ := exists_normalize? hv
    rw [h] at hsome
    cases hsome
  · rintro rfl
    have hlength : (zero : Vec3 ℝ).length = 0 :=
      (congrArg Real.sqrt (dot_self_eq_zero.mpr rfl)).trans Real.sqrt_zero
    have hnone : ¬(0 : ℝ) < 1 / (zero : Vec3 ℝ).length := by
      rw [hlength, div_zero]
      exact lt_irrefl 0
    exact if_neg (mt of_decide_eq_true hnone)

/-! ## Parts across an axis -/

/-- The part of a vector across an axis: what its share along the axis leaves. -/
def rejection {α : Type} [Scalar α] (v axis : Vec3 α) : Vec3 α :=
  v - (v.dot axis / axis.dot axis) • axis

/-- The vector is on the line through the origin in the direction of another one. -/
def OnLine {α : Type} [Scalar α] (v axis : Vec3 α) : Prop := ∃ k : α, v = k • axis

theorem rejection_dot (h : w ≠ zero) : (v.rejection w).dot w = 0 := by
  have hw := (dot_self_pos h).ne'
  calc (v.rejection w).dot w = v.dot w - v.dot w / w.dot w * w.dot w := by
        dsimp [rejection, dot]
        ring
    _ = 0 := by rw [div_mul_cancel₀ _ hw, sub_self]

theorem rejection_eq_zero_iff (h : w ≠ zero) : v.rejection w = zero ↔ v.OnLine w := by
  rw [rejection, sub_eq_zero_iff]
  constructor
  · intro hv
    exact ⟨_, hv⟩
  · rintro ⟨k, rfl⟩
    have hshare : (k • w).dot w / w.dot w = k := by
      have hdot : (k • w).dot w = k * w.dot w := by
        dsimp [dot]
        ring
      rw [hdot, mul_div_cancel_right₀ k (dot_self_pos h).ne']
    rw [hshare]

end Espalier.Vec3
