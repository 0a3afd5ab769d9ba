import Espalier.Proofs.Geometry.Rotation
import Espalier.Proofs.Scene.Attachment
import Espalier.Proofs.Scene.Graft

/-!
# An aim brings vectors in line

With a held position, an aim turns a node about the axis through it until what the grabbed position
and the target have across the axis is in line. The turn is found in the frame of the node, from the
scaled vectors, and acts before the rotation that the node has: so the axis stays where it was in
the frame of the parent, and the grabbed vector is brought to where the target vector was there.

Results:
1. `aboutAxis?_eq_none_iff`, `aboutAxis?_aligns`: when there is a turn, and what it does.
2. `hold_own`, `grab_own`, `hold_grab_aim`: what the three steps make of the node.
3. `aim_aligns`: the rotation after the three steps, if there is a turn and if there is none.
-/

namespace Espalier

open scoped Exact

/-! ## The turn -/

namespace Vec3

variable {v w : Vec3 ℝ} {k : ℝ}

/-- Across the direction of a vector is across the vector itself. -/
theorem across_eq_rejection (h : (k • w).dot (k • w) = 1) : v.across (k • w) = v.rejection w := by
  have hunit : k * k * w.dot w = 1 := by
    rw [← h]
    dsimp [dot]
    ring
  have hshare : k * k = 1 / w.dot w := eq_one_div_of_mul_eq_one_left hunit
  calc v.across (k • w) = v - (v.dot w * (k * k)) • w := by
        ext <;> dsimp [across, dot] <;> ring
    _ = v.rejection w := by rw [hshare, mul_one_div, rejection]

theorem smul_smul_of_mul_eq_one {i : ℝ} (h : k * i = 1) : i • k • v = v := by
  have hterm : ∀ t : ℝ, t * k * i = t := fun t => by rw [mul_assoc, h, mul_one]
  ext <;> exact hterm _

end Vec3

namespace Quat

variable {held a b : Vec3 ℝ}

/-- There is no turn if and only if the axis is open or one of the vectors lies on it. -/
theorem aboutAxis?_eq_none_iff : aboutAxis? held a b = none ↔
    held = Vec3.zero ∨ a.OnLine held ∨ b.OnLine held := by
  rw [aboutAxis?_eq_none, Vec3.normalize?_eq_none_iff]
  by_cases hheld : held = Vec3.zero
  · simp [hheld]
  obtain ⟨k, -, haxis, hunit⟩ := Vec3.exists_normalize? hheld
  simp [hheld, haxis, Vec3.across_eq_rejection hunit, Vec3.normalize?_eq_none_iff,
    Vec3.rejection_eq_zero_iff hheld]

/-- The turn about the axis leaves the axis as it is, and brings what the one vector has across it
in line with what the other one has. -/
theorem aboutAxis?_aligns (hheld : held ≠ Vec3.zero) (ha : ¬a.OnLine held) (hb : ¬b.OnLine held) :
    ∃ q, aboutAxis? held a b = some q ∧ q.normSq = 1 ∧ q.rotate held = held ∧
      ∃ k : ℝ, 0 < k ∧ q.rotate (a.rejection held) = k • b.rejection held := by
  obtain ⟨k, hk, haxis, hunit⟩ := Vec3.exists_normalize? hheld
  obtain ⟨i, hi, hstart, hstartUnit⟩ :=
    Vec3.exists_normalize? (mt (Vec3.rejection_eq_zero_iff hheld).mp ha)
  obtain ⟨j, hj, hstop, hstopUnit⟩ :=
    Vec3.exists_normalize? (mt (Vec3.rejection_eq_zero_iff hheld).mp hb)
  have hacross : ∀ (l : ℝ) (v : Vec3 ℝ), (l • v.rejection held).dot (k • held) = 0 := fun l v => by
    calc (l • v.rejection held).dot (k • held) = l * k * (v.rejection held).dot held := by
          dsimp [Vec3.dot]
          ring
      _ = 0 := by rw [Vec3.rejection_dot hheld, mul_zero]
  obtain ⟨q, hturn, hq, hfix, hswing⟩ : ∃ q, aboutAxis? held a b = some q ∧ q.normSq = 1 ∧
      q.rotate (k • held) = k • held ∧
      q.rotate (i • a.rejection held) = j • b.rejection held :=
    ⟨_, aboutAxis?_eq_some haxis (by rw [Vec3.across_eq_rejection hunit, hstart])
        (by rw [Vec3.across_eq_rejection hunit, hstop]),
      normSq_ofAxisAngle hunit _, rotate_ofAxisAngle_axis hunit _,
      rotate_between hunit hstartUnit (hacross i a) hstopUnit (hacross j b)⟩
  obtain ⟨k', hk'⟩ : ∃ k', k * k' = 1 := ⟨_, mul_inv_cancel₀ hk.ne'⟩
  obtain ⟨i', hi'⟩ : ∃ i', i * i' = 1 := ⟨_, mul_inv_cancel₀ hi.ne'⟩
  have hi'pos : 0 < i' := pos_of_mul_pos_right (hi' ▸ one_pos) hi.le
  refine ⟨q, hturn, hq, ?_, j * i', mul_pos hj hi'pos, ?_⟩
  · calc q.rotate held = q.rotate (k' • k • held) := by rw [Vec3.smul_smul_of_mul_eq_one hk']
      _ = k' • k • held := by rw [rotate_smul, hfix]
      _ = held := Vec3.smul_smul_of_mul_eq_one hk'
  · calc q.rotate (a.rejection held) = q.rotate (i' • i • a.rejection held) := by
          rw [Vec3.smul_smul_of_mul_eq_one hi']
      _ = i' • j • b.rejection held := by rw [rotate_smul, hswing]
      _ = (j * i') • b.rejection held := by ext <;> exact mul_assoc _ _ _

end Quat

/-! ## The three steps -/

namespace Scene

section Steps

variable {α : Type} [Scalar α] {s : Scene α} {id : NodeId} {h g t : Anchor α}

/-- A node is changed by a position that was brought into its frame, as by `hold` and `grab`. -/
theorem resolved_changes {a : Anchor α} {v : Vec3 α} (hid : s.contains id)
    (ha : s.resolve id a = .ok v) (f : Vec3 α → Node α → Node α) :
    ∃ s', (match s.resolve id a with
      | .error e => .error e s
      | .ok v => update id (f v) s : EStateM.Result Failure (Scene α) Unit) = .ok () s' ∧
      s'.contains id ∧ s'.node id = f v (s.node id) := by
  refine ⟨s.modify id (f v), ?_, ?_, ?_⟩
  · rw [ha]
    exact if_pos hid
  · rwa [contains_iff, size_modify, ← contains_iff]
  · rw [node_modify, if_pos ⟨rfl, hid⟩]

/-- Anchors in the frame of the node itself are never refused. -/
theorem hold_own (hid : s.contains id) (hh : h.IsOwn id) :
    ∃ s', hold id h s = .ok () s' ∧ s'.contains id ∧
      s'.node id = { s.node id with held := some h.position } :=
  resolved_changes hid (resolve_ok hh) fun v n => { n with held := some v }

theorem grab_own (hid : s.contains id) (hg : g.IsOwn id) :
    ∃ s', grab id g s = .ok () s' ∧ s'.contains id ∧
      s'.node id = { s.node id with grabbed := some g.position } :=
  resolved_changes hid (resolve_ok hg) fun v n => { n with grabbed := some v }

/-- Of the frame of the node the three steps change the rotation alone, by the turn about the axis
if there is one. -/
theorem hold_grab_aim (hid : s.contains id) (hh : h.IsOwn id) (hg : g.IsOwn id) (ht : t.IsOwn id) :
    let old := (s.node id).transform
    let turn := Quat.aboutAxis? (old.scale * h.position) (old.scale * g.position)
      (old.scale * t.position)
    ∃ s', (do hold id h; grab id g; aim id t : Action α Unit) s = .ok () s' ∧
      (s'.node id).transform =
        { old with rotation := turn.elim old.rotation fun q => (old.rotation * q).normalize } := by
  intro old turn
  obtain ⟨s₁, hhold, hid₁, hnode₁⟩ := hold_own hid hh
  obtain ⟨s₂, hgrab, hid₂, hnode₂⟩ := grab_own hid₁ hg
  rw [hnode₁] at hnode₂
  have hgrabbed : (s₂.node id).grabbed = some g.position := by rw [hnode₂]
  have hcorrection : (s₂.node id).correction? g.position t.position = turn := by
    rw [hnode₂]
    rfl
  have hrun : (do hold id h; grab id g; aim id t : Action α Unit) s = aim id t s₂ := by
    show EStateM.bind (hold id h) (fun _ => EStateM.bind (grab id g) fun _ => aim id t) s = _
    simp only [EStateM.bind, hhold, hgrab]
  rw [hrun, aim, if_pos hid₂]
  simp only [hgrabbed, resolve_ok ht, hcorrection]
  cases turn with
  | none => exact ⟨s₂, rfl, by rw [hnode₂]; rfl⟩
  | some q =>
    refine ⟨_, rfl, ?_⟩
    rw [node_modify, if_pos ⟨rfl, hid₂⟩, hnode₂]
    rfl

end Steps

/-- After a hold, a grab and an aim with anchors in the frame of the node itself, in any scene and
for a node with a unit rotation. If the scaled held vector is not zero and neither of the other two
is on its line, then the new rotation is a unit one again; it takes the held vector to where the old
one did, and what the grabbed vector has across it to where the old one took what the target has
across it, but for a positive factor. In every other case the rotation is what it was. -/
theorem aim_aligns (s : Scene ℝ) {id : NodeId} {h g t : Anchor ℝ} (hid : s.contains id)
    (hunit : (s.node id).transform.rotation.normSq = 1)
    (hh : h.IsOwn id) (hg : g.IsOwn id) (ht : t.IsOwn id) :
    let old := (s.node id).transform
    let held := old.scale * h.position
    let grabbed := old.scale * g.position
    let target := old.scale * t.position
    ∃ s' rotation, (do hold id h; grab id g; aim id t : Action ℝ Unit) s = .ok () s' ∧
      (s'.node id).transform = { old with rotation } ∧
      (held ≠ Vec3.zero ∧ ¬grabbed.OnLine held ∧ ¬target.OnLine held →
        rotation.normSq = 1 ∧ rotation.rotate held = old.rotation.rotate held ∧
          ∃ k : ℝ, 0 < k ∧ rotation.rotate (grabbed.rejection held) =
            k • old.rotation.rotate (target.rejection held)) ∧
      (held = Vec3.zero ∨ grabbed.OnLine held ∨ target.OnLine held → rotation = old.rotation) := by
  intro old held grabbed target
  obtain ⟨s', hrun, hframe⟩ := hold_grab_aim hid hh hg ht
  refine ⟨s', _, hrun, hframe, ?_, ?_⟩
  · rintro ⟨hheld, hgrabbed, htarget⟩
    obtain ⟨q, hq, hqunit, haxis, k, hk, hswing⟩ :=
      Quat.aboutAxis?_aligns hheld hgrabbed htarget
    have hproduct : (old.rotation * q).normSq = 1 := by
      rw [Quat.normSq_mul, hunit, hqunit, mul_one]
    rw [hq, Option.elim_some, Quat.normalize_of_unit hproduct]
    refine ⟨hproduct, ?_, k, hk, ?_⟩
    · rw [Quat.rotate_mul, haxis]
    · rw [Quat.rotate_mul, hswing, Quat.rotate_smul]
  · intro hdegenerate
    rw [Quat.aboutAxis?_eq_none_iff.mpr hdegenerate, Option.elim_none]

/-- A turned and stretched node, held along its second axis: the grabbed vector and the target have
opposite directions across it. If the target is on the axis instead, then the node stays. -/
theorem aim_aligns_opposite :
    let s : Scene ℝ := empty.after [.add turned]
    let old := (s.node 1).transform
    let h : Anchor ℝ := .here ⟨0, 1, 0⟩
    let g : Anchor ℝ := .point ⟨1, ⟨1, 1, 0⟩⟩
    let t : Anchor ℝ := .here ⟨-1, 1, 0⟩
    let onAxis : Anchor ℝ := .here ⟨0, -1, 0⟩
    (s.contains 1 ∧ old.rotation.normSq = 1 ∧ h.IsOwn 1 ∧ g.IsOwn 1 ∧ t.IsOwn 1 ∧
      ∃ s' rotation, (do hold 1 h; grab 1 g; aim 1 t : Action ℝ Unit) s = .ok () s' ∧
        (s'.node 1).transform = { old with rotation } ∧ rotation.normSq = 1 ∧
        rotation.rotate (old.scale * h.position) = old.rotation.rotate (old.scale * h.position) ∧
        ∃ k : ℝ, 0 < k ∧
          rotation.rotate ((old.scale * g.position).rejection (old.scale * h.position)) =
            k • old.rotation.rotate
              ((old.scale * t.position).rejection (old.scale * h.position))) ∧
    (onAxis.IsOwn 1 ∧ ∃ s', (do hold 1 h; grab 1 g; aim 1 onAxis : Action ℝ Unit) s = .ok () s' ∧
      (s'.node 1).transform = old) := by
  intro s old h g t onAxis
  have hid : s.contains 1 := rfl
  have hunit : old.rotation.normSq = 1 := by
    show turned.rotation.normSq = 1
    norm_num [turned, Quat.normSq, Scalar.half]
  have hheld : old.scale * h.position ≠ Vec3.zero := by
    intro hzero
    have hy : (1 : ℝ) * 1 = 0 := congrArg Vec3.y hzero
    norm_num at hy
  have hgrabbed : ¬(old.scale * g.position).OnLine (old.scale * h.position) := by
    rintro ⟨k, hk⟩
    have hx : (Scalar.two : ℝ) * 1 = Scalar.two * 0 * k := congrArg Vec3.x hk
    norm_num [Scalar.two] at hx
  have htarget : ¬(old.scale * t.position).OnLine (old.scale * h.position) := by
    rintro ⟨k, hk⟩
    have hx : (Scalar.two : ℝ) * -1 = Scalar.two * 0 * k := congrArg Vec3.x hk
    norm_num [Scalar.two] at hx
  have honAxis : (old.scale * onAxis.position).OnLine (old.scale * h.position) := by
    refine ⟨-1, ?_⟩
    ext <;> norm_num [old, s, onAxis, h, Anchor.position]
  obtain ⟨s', rotation, hrun, hframe, haligned, -⟩ :=
    @aim_aligns s 1 h g t hid hunit trivial rfl trivial
  obtain ⟨s₂, rotation₂, hrun₂, hframe₂, -, hsame⟩ :=
    @aim_aligns s 1 h g onAxis hid hunit trivial rfl trivial
  refine ⟨⟨hid, hunit, trivial, rfl, trivial, s', rotation, hrun, hframe,
    haligned ⟨hheld, hgrabbed, htarget⟩⟩, trivial, s₂, hrun₂, ?_⟩
  rw [hframe₂, hsame (.inr (.inr honAxis))]

end Scene

end Espalier
