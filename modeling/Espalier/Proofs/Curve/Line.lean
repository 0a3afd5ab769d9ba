import Espalier.Curve
import Espalier.Proofs.Geometry.Vector
import Mathlib.Order.Filter.Extr

/-!
# The nearest point of a line

The squared distance from a point of a segment is a quadratic function of its parameter. Its lowest
point is the foot of the perpendicular, and on the unit interval it is lowest at the parameter that
is left when the foot is clamped. So a projection to a line, read over the real numbers, is no
approximation. A segment of no length has one point, and its parameter is chosen to be zero.

Results:
1. `distanceSq_along`: the squared distances from two points of a segment.
2. `clampUnit_foot`: from a clamped foot of the perpendicular on, the distance does not shrink.
3. `project_line_nearest`: the projection, its place on the segment, and that no other is as near.
-/

namespace Espalier

open scoped Exact

/-- The square of the distance of two positions. -/
def Vec3.distanceSq {α : Type} [Scalar α] (a b : Vec3 α) : α := (a - b).dot (a - b)

namespace Scalar

variable {x a b : ℝ}

theorem clampUnit_of_neg (h : x < 0) : clampUnit x = 0 := if_pos (decide_eq_true h)

theorem clampUnit_of_one_lt (h : 1 < x) : clampUnit x = 1 := by
  have hlow : ¬x < 0 := by linarith
  exact (if_neg (mt of_decide_eq_true hlow)).trans (if_pos (decide_eq_true h))

theorem clampUnit_of_mem (h : x ∈ Set.Icc 0 1) : clampUnit x = x := by
  have hlow : ¬x < 0 := not_lt.mpr h.1
  have hhigh : ¬1 < x := not_lt.mpr h.2
  exact (if_neg (mt of_decide_eq_true hlow)).trans (if_neg (mt of_decide_eq_true hhigh))

/-- Clamping moves a foot of the perpendicular to the nearest parameter of the unit interval: to all
others, the way leads away from the foot, if it leads anywhere. -/
theorem clampUnit_foot (ha : 0 < a) (hfoot : a * x = b) :
    clampUnit x ∈ Set.Icc (0 : ℝ) 1 ∧
      ∀ s ∈ Set.Icc (0 : ℝ) 1, 0 ≤ (s - clampUnit x) * (a * clampUnit x - b) := by
  by_cases hlow : x < 0
  · rw [clampUnit_of_neg hlow]
    refine ⟨Set.left_mem_Icc.mpr zero_le_one, fun s hs => ?_⟩
    have hb : b < 0 := hfoot ▸ mul_neg_of_pos_of_neg ha hlow
    exact mul_nonneg (sub_nonneg.mpr hs.1) (by linarith)
  · by_cases hhigh : 1 < x
    · rw [clampUnit_of_one_lt hhigh]
      refine ⟨Set.right_mem_Icc.mpr zero_le_one, fun s hs => ?_⟩
      have hb : a < b := hfoot ▸ lt_mul_of_one_lt_right ha hhigh
      exact mul_nonneg_of_nonpos_of_nonpos (sub_nonpos.mpr hs.2) (by linarith)
    · have hmem : x ∈ Set.Icc (0 : ℝ) 1 := ⟨not_lt.mp hlow, not_lt.mp hhigh⟩
      rw [clampUnit_of_mem hmem]
      refine ⟨hmem, fun s _ => ?_⟩
      rw [hfoot, sub_self, mul_zero]

end Scalar

namespace Curve

/-- The point of a segment at a parameter. -/
def along {α : Type} [Scalar α] (start stop : Vec3 α) (t : α) : Vec3 α := start + t • (stop - start)

/-- The squared distances from two points of a segment differ by the square of the way between
them, and by twice how far this way leads from the foot of the perpendicular. -/
theorem distanceSq_along (start stop p : Vec3 ℝ) (s t : ℝ) :
    p.distanceSq (along start stop s) = p.distanceSq (along start stop t) +
      ((stop - start).dot (stop - start) * (s - t) ^ 2 +
        2 * ((s - t) * ((stop - start).dot (stop - start) * t - (p - start).dot (stop - start)))) := by
  dsimp [Vec3.distanceSq, along, Vec3.dot]
  ring

/-- From the parameter of the projection, all ways within the segment lead away from the foot of the
perpendicular, also on a segment of no length, where none leads anywhere. -/
theorem project_line_foot (start stop p : Vec3 ℝ) :
    let d := stop - start
    let t := ((line start stop).project p).t
    t ∈ Set.Icc (0 : ℝ) 1 ∧
      ∀ s ∈ Set.Icc (0 : ℝ) 1, 0 ≤ (s - t) * (d.dot d * t - (p - start).dot d) := by
  intro d t
  by_cases hlength : 0 < d.dot d
  · have ht : t = Scalar.clampUnit ((p - start).dot d / d.dot d) := if_pos (decide_eq_true hlength)
    rw [ht]
    exact Scalar.clampUnit_foot hlength (mul_div_cancel₀ _ hlength.ne')
  · have ht : t = 0 := if_neg (mt of_decide_eq_true hlength)
    have hd : d = .zero :=
      Vec3.dot_self_eq_zero.mp (le_antisymm (not_lt.mp hlength) (Vec3.dot_self_nonneg d))
    have hdot : (p - start).dot .zero = 0 := by
      show (p - start).x * 0 + (p - start).y * 0 + (p - start).z * 0 = 0
      ring
    rw [ht, hd, hdot]
    refine ⟨Set.left_mem_Icc.mpr zero_le_one, fun s _ => ?_⟩
    rw [mul_zero, sub_self, mul_zero]

/-- Away from the projection, the squared distance grows by no less than the square of the way. -/
theorem distanceSq_grows (start stop p : Vec3 ℝ) {s : ℝ} (hs : s ∈ Set.Icc 0 1) :
    let t := ((line start stop).project p).t
    p.distanceSq (along start stop t) + (stop - start).dot (stop - start) * (s - t) ^ 2 ≤
      p.distanceSq (along start stop s) := by
  intro t
  have hfoot := (project_line_foot start stop p).2 s hs
  rw [distanceSq_along start stop p s t]
  linarith

/-- The projection of a position to a line, read over the real numbers: its parameter is in the unit
interval, its point is the one at this parameter, and none of the segment is nearer. No other
parameter has this property, unless the segment has no length, and then the parameter is zero. -/
theorem project_line_nearest (start stop p : Vec3 ℝ) :
    let r := (line start stop).project p
    let distanceSq := fun s => p.distanceSq (along start stop s)
    r.t ∈ Set.Icc (0 : ℝ) 1 ∧ r.point = along start stop r.t ∧
      IsMinOn distanceSq (Set.Icc 0 1) r.t ∧
      (start ≠ stop → ∀ s ∈ Set.Icc (0 : ℝ) 1, IsMinOn distanceSq (Set.Icc 0 1) s → s = r.t) ∧
      (start = stop → r.t = 0) := by
  intro r distanceSq
  obtain ⟨hmem, -⟩ := project_line_foot start stop p
  refine ⟨hmem, rfl, fun s hs => ?_, fun hne s hs hmin => ?_, ?_⟩
  · have hgrows := distanceSq_grows start stop p hs
    have hway := mul_nonneg (Vec3.dot_self_nonneg (stop - start)) (sq_nonneg (s - r.t))
    exact (le_add_of_nonneg_right hway).trans hgrows
  · have hgrows := distanceSq_grows start stop p hs
    have hlength : 0 < (stop - start).dot (stop - start) :=
      Vec3.dot_self_pos fun h => hne (Vec3.sub_eq_zero_iff.mp h).symm
    have hle : distanceSq s ≤ distanceSq r.t := hmin hmem
    have hway : (stop - start).dot (stop - start) * (s - r.t) ^ 2 ≤ 0 := by linarith
    have hsquare : (s - r.t) ^ 2 = 0 :=
      le_antisymm (nonpos_of_mul_nonpos_right hway hlength) (sq_nonneg _)
    exact sub_eq_zero.mp (pow_eq_zero_iff two_ne_zero |>.mp hsquare)
  · rintro rfl
    have hnone : ¬0 < (start - start).dot (start - start) := by
      rw [Vec3.sub_eq_zero_iff.mpr rfl, Vec3.dot_self_eq_zero.mpr rfl]
      exact lt_irrefl 0
    exact if_neg (mt of_decide_eq_true hnone)

end Curve

end Espalier
