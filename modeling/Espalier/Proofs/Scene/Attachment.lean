import Espalier.Proofs.Geometry.Frame
import Espalier.Proofs.Scene.Locality
import Mathlib.Tactic.NormNum

/-!
# A join makes points coincide

A join computes the position of a node from the quaternion of the node, and where a point is in
space comes from the matrices along the ancestors of its node. Both agree on where the point of the
node is in the frame of the parent, if the rotation is a unit one, and everything further up is the
same for both points, whatever frames are there.

Results:
1. `worldPoint_of_parent`: a point in space, through the frame of the parent.
2. `join_coincides`: after a join, the two points are at one place.
-/

namespace Espalier.Scene

open scoped Exact

variable {s s' : Scene ℝ} {this target : Point ℝ}

/-- A point of an attached node is in space where its place in the frame of the parent is. -/
theorem worldPoint_of_parent (hf : Forest s) {id parent : NodeId} (h : s.parent? id = some parent)
    (p : Vec3 ℝ) : s.worldPoint ⟨id, p⟩ =
      s.worldPoint ⟨parent, (s.node id).transform.toMatrix.transformPoint p⟩ := by
  rw [worldPoint, worldMatrix_of_parent hf h]
  exact Mat4.transformPoint_mul _ (Transform.toMatrix_isFrame _) p

/-- A join links the node of the point and puts its frame into the stuck position. -/
theorem join_places (h : join this target s = .ok () s') :
    s'.parent? this.node = some target.node ∧
      let t := (s.node this.node).transform
      (s'.node this.node).transform =
        { t with position := t.stuckPosition this.position target.position } := by
  have hjoined := join_joined s this target
  rw [h] at hjoined
  have hnode := hjoined.2 this.node
  refine ⟨?_, ?_⟩
  · rw [parent?, hnode]
    exact if_pos rfl
  · rw [hnode]
    exact if_pos rfl

/-- In any scene that a history has made: a join that succeeds makes the two points coincide in
space, if the rotation of the node that it moves is a unit one, and whatever frames the ancestors of
the target have. The rotation has to be a unit one because a frame acts on a point as its matrix
does but for a multiple of the scaled point, which is none then. -/
theorem join_coincides :
    (∀ (t : Transform ℝ) (v : Vec3 ℝ),
      t.apply v = t.toMatrix.transformPoint v + (t.rotation.normSq - 1) • (t.scale * v) ∧
      (t.rotation.normSq = 1 → t.apply v = t.toMatrix.transformPoint v)) ∧
    ∀ (es : List (Edit ℝ)) (this target : Point ℝ) (s' : Scene ℝ),
      let s : Scene ℝ := empty.after es
      join this target s = .ok () s' → (s.node this.node).transform.rotation.normSq = 1 →
        s'.worldPoint this = s'.worldPoint target := by
  refine ⟨fun t v => ⟨t.apply_eq v, fun hunit => t.apply_eq_transformPoint hunit v⟩, ?_⟩
  intro es this target s' s h hunit
  obtain ⟨hparent, htransform⟩ := join_places h
  have hf : Forest s' := by
    have hevolves := join_evolves this target s
    rw [h] at hevolves
    exact evolves_forest hevolves (after_forest es)
  have hunit' : (s'.node this.node).transform.rotation.normSq = 1 := by rwa [htransform]
  have hplace : (s'.node this.node).transform.toMatrix.transformPoint this.position =
      target.position := by
    rw [← Transform.apply_eq_transformPoint _ hunit', htransform, Transform.apply_stuck]
  rw [worldPoint_of_parent hf hparent, hplace]

/-- A frame that is turned by a third about the diagonal, so that the axes change places. -/
noncomputable def turned : Transform ℝ where
  position := ⟨1, 0, Scalar.three⟩
  rotation := ⟨Scalar.half, Scalar.half, Scalar.half, Scalar.half⟩
  scale := ⟨Scalar.two, 1, Scalar.half⟩

/-- A turned node is joined to a turned one, which is joined to the root. -/
theorem join_coincides_turned :
    let s : Scene ℝ := empty.after [.add turned, .add turned, .join ⟨1, ⟨4, 5, 6⟩⟩ ⟨0, ⟨7, 8, 9⟩⟩]
    let this : Point ℝ := ⟨2, ⟨1, 0, 2⟩⟩
    let target : Point ℝ := ⟨1, ⟨3, 4, 1⟩⟩
    (s.node this.node).transform.rotation.normSq = 1 ∧
    ∃ s', join this target s = .ok () s' ∧ s'.worldPoint this = s'.worldPoint target := by
  intro s this target
  have hunit : (s.node this.node).transform.rotation.normSq = 1 := by
    show turned.rotation.normSq = 1
    norm_num [turned, Quat.normSq, Scalar.half]
  obtain ⟨s', hjoin⟩ : ∃ s', join this target s = .ok () s' := ⟨_, rfl⟩
  exact ⟨hunit, s', hjoin, join_coincides.2 _ this target s' hjoin hunit⟩

end Espalier.Scene
