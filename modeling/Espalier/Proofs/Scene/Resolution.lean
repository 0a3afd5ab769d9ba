import Espalier.Proofs.Geometry.Inverse
import Espalier.Proofs.Scene.Attachment
import Espalier.Proofs.Scene.Graft

/-!
# A point in the frame of another node

A point is brought into the frame of a node through space: out of the frames of its own chain of
ancestors, and into those of the other one by an inverse. Over the real numbers nothing is lost on
the way, whatever frames there are, unless the inverse is refused because the determinant is too
small. A point of the node itself takes no way at all, and the coordinates that it keeps are those
that the way would lead to.

Results:
1. `worldMatrix_isFrame`: the matrix of a node in space maps points to points.
2. `resolve_roundTrip`: where a resolved point is in space, when resolving fails, and what it does
   with a point of the node.
-/

namespace Espalier.Scene

open scoped Exact

variable {s : Scene ℝ} {id : NodeId} {p : Point ℝ} {m : Mat4 ℝ} {f : Failure} {v : Vec3 ℝ}

/-! ## Frames in space -/

theorem chainMatrix_isFrame (s : Scene ℝ) (ids : List NodeId) : (s.chainMatrix ids).IsFrame := by
  induction ids with
  | nil => exact Mat4.identity_isFrame
  | cons id outer ih =>
    cases outer with
    | nil => exact Transform.toMatrix_isFrame _
    | cons => exact ih.mul_iff.mpr (Transform.toMatrix_isFrame _)

theorem worldMatrix_isFrame (s : Scene ℝ) (id : NodeId) : (s.worldMatrix id).IsFrame :=
  chainMatrix_isFrame s _

/-! ## Determinants -/

theorem isInvertible_iff : isInvertible m ↔ ¬|m.determinant| < Scalar.tiny := by
  have htest : isInvertible m = !decide (|m.determinant| < Scalar.tiny) := rfl
  rw [htest, Bool.not_eq_true', decide_eq_false_iff_not]

theorem tiny_pos : (0 : ℝ) < Scalar.tiny := by
  show (0 : ℝ) < 1 / 2 ^ 126
  positivity

/-- A matrix whose determinant is zero is refused. -/
theorem determinant_ne_zero (h : isInvertible m) : m.determinant ≠ 0 := by
  intro hzero
  rw [isInvertible_iff, hzero, abs_zero] at h
  exact h tiny_pos

/-! ## Resolving -/

/-- The coordinates of a point of another node, if the frame is not refused. -/
theorem resolve_foreign (hid : s.contains id) (hp : s.contains p.node) (hne : p.node ≠ id) :
    s.resolve id (.point p) =
      if isInvertible (s.worldMatrix id) then
        .ok ((s.worldMatrix id).inverse.transformPoint (s.worldPoint p))
      else .error (.error (.singularTransform id)) := by
  simp only [resolve, if_neg hne, hid, hp, Bool.not_true, Bool.false_eq_true, if_false]

theorem worldPoint_of_resolve (hid : s.contains id) (hp : s.contains p.node)
    (h : s.resolve id (.point p) = .ok v) : s.worldPoint ⟨id, v⟩ = s.worldPoint p := by
  by_cases hown : p.node = id
  · rw [resolve_ok (a := .point p) hown] at h
    cases h
    subst hown
    rfl
  · rw [resolve_foreign hid hp hown] at h
    by_cases hinvertible : isInvertible (s.worldMatrix id)
    · rw [if_pos hinvertible] at h
      cases h
      exact Mat4.transformPoint_inverse (worldMatrix_isFrame s id) (determinant_ne_zero hinvertible) _
    · rw [if_neg hinvertible] at h
      cases h

theorem resolve_error_iff (hid : s.contains id) (hp : s.contains p.node) :
    s.resolve id (.point p) = .error f ↔
      p.node ≠ id ∧ |(s.worldMatrix id).determinant| < Scalar.tiny ∧
        f = .error (.singularTransform id) := by
  by_cases hown : p.node = id
  · rw [resolve_ok (a := .point p) hown]
    simp [hown]
  · rw [resolve_foreign hid hp hown]
    by_cases hinvertible : isInvertible (s.worldMatrix id)
    · rw [if_pos hinvertible]
      simp [isInvertible_iff.mp hinvertible]
    · rw [if_neg hinvertible]
      have hsmall := not_not.mp (mt isInvertible_iff.mpr hinvertible)
      simp [hown, hsmall, eq_comm]

/-- In any scene, whatever the frames of its nodes are: a point that is resolved into the frame of a
node stays where it is in space. Resolving fails, with the error that names the node, if and only if
the point is on another node and the determinant of the frame, zero or not, is below the bound. A
point of the node itself keeps its coordinates, though the frame may be singular, and if it is not,
these are the coordinates that the way through space leads to. -/
theorem resolve_roundTrip (s : Scene ℝ) {id : NodeId} {p : Point ℝ} (hid : s.contains id)
    (hp : s.contains p.node) :
    (∀ v, s.resolve id (.point p) = .ok v → s.worldPoint ⟨id, v⟩ = s.worldPoint p) ∧
    (∀ f, s.resolve id (.point p) = .error f ↔
      p.node ≠ id ∧ |(s.worldMatrix id).determinant| < Scalar.tiny ∧
        f = .error (.singularTransform id)) ∧
    (p.node = id → s.resolve id (.point p) = .ok p.position ∧
      ((s.worldMatrix id).determinant ≠ 0 →
        (s.worldMatrix id).inverse.transformPoint (s.worldPoint p) = p.position)) := by
  refine ⟨fun v => worldPoint_of_resolve hid hp, fun f => resolve_error_iff hid hp, fun hown => ?_⟩
  refine ⟨resolve_ok hown, fun hdet => ?_⟩
  rw [worldPoint, hown]
  exact Mat4.inverse_transformPoint (worldMatrix_isFrame s id) hdet p.position

/-- A frame without height, in which all points of a vertical line fall together. -/
noncomputable def flattened : Transform ℝ := { turned with scale := ⟨1, 0, 1⟩ }

/-- The first node is turned and stands alone, the second one is turned under the root, and the third
one is flattened. -/
theorem resolve_roundTrip_turned :
    let s : Scene ℝ := empty.after [.add turned, .add turned, .link 0 2, .add flattened]
    let p : Point ℝ := ⟨2, ⟨1, 0, 1⟩⟩
    let q : Point ℝ := ⟨3, ⟨0, 1, 0⟩⟩
    (s.contains 1 ∧ s.contains p.node ∧
      ∃ v, s.resolve 1 (.point p) = .ok v ∧ s.worldPoint ⟨1, v⟩ = s.worldPoint p) ∧
    (s.contains 3 ∧ s.contains q.node ∧
      s.resolve 3 (.point p) = .error (.error (.singularTransform 3)) ∧
      s.resolve 3 (.point q) = .ok q.position) := by
  intro s p q
  have hid : s.contains 1 := rfl
  have hp : s.contains p.node := rfl
  have hid' : s.contains 3 := rfl
  have hdet : (s.worldMatrix 1).determinant = 1 := by
    show turned.toMatrix.determinant = 1
    norm_num [turned, Transform.toMatrix, Mat4.ofScaleRotationPosition, Mat4.determinant, Vec4.dot,
      Scalar.half, Scalar.two, Vec4.ofVec3]
  have hflat : (s.worldMatrix 3).determinant = 0 := by
    show flattened.toMatrix.determinant = 0
    norm_num [flattened, turned, Transform.toMatrix, Mat4.ofScaleRotationPosition, Mat4.determinant,
      Vec4.dot, Scalar.half, Scalar.two, Vec4.ofVec3]
  have hinvertible : isInvertible (s.worldMatrix 1) := by
    have htiny : ¬(1 : ℝ) < 1 / 2 ^ 126 := by norm_num
    rw [isInvertible_iff, hdet, abs_one]
    exact htiny
  have hok := resolve_foreign hid hp (by decide)
  rw [if_pos hinvertible] at hok
  refine ⟨⟨hid, hp, _, hok, (resolve_roundTrip s hid hp).1 _ hok⟩, hid', hid', ?_, ?_⟩
  · refine ((resolve_roundTrip s hid' hp).2.1 _).mpr ⟨by decide, ?_, rfl⟩
    rw [hflat, abs_zero]
    exact tiny_pos
  · exact ((resolve_roundTrip s hid' hid').2.2 rfl).1

end Espalier.Scene
