import Espalier.Proofs.Angle.HalfTurn
import Espalier.Proofs.Geometry.Direction
import Espalier.Proofs.Scene.Alignment

/-!
# What rounding leaves of a vector on the axis

In exact arithmetic, a vector on the axis has nothing across it, and an aim with such a vector
leaves the rotation as it is. The executable aim takes from the vector its part along the axis, and if
rounding leaves a residue, however small, then the residue is normalized like any other vector: the
node is turned by an angle that means nothing. So the aim is without effect for all targets if and
only if the residue has no direction. If it has one, then the vector of the opposite direction makes
the node do half a turn.

Results:
1. `Vec3.OnAxis.aboutAxis?_eq_none`: with a vector on the axis, as executed, there is no turn.
2. `aboutAxis?_opposed`: the turn between a vector and the opposite one.
3. `aim_on_axis`: when a grabbed vector, or a target, leaves the rotation as it is whatever the
   other one is.
4. `residue_turns`: a held vector, grabbed itself, that turns the node.
-/

namespace Espalier

open Float.Model.UnpackedFloat

variable {axis held a b g w : Vec3 Float32} {θ : Float32}

/-- The part of a vector across the axis through a held one has no direction, as executed; or the
held one has none. -/
def Vec3.OnAxis {α : Type} [Scalar α] (v held : Vec3 α) : Prop :=
  ∀ axis, held.normalize? = some axis → (v.across axis).normalize? = none

namespace Vec3.OnAxis

variable {α : Type} [Scalar α] {v w held : Vec3 α}

theorem or_residue (v held : Vec3 α) : v.OnAxis held ∨
    ∃ axis a, held.normalize? = some axis ∧ (v.across axis).normalize? = some a := by
  by_cases h : v.OnAxis held
  · exact .inl h
  · simp only [OnAxis, not_forall] at h
    obtain ⟨axis, haxis, hsome⟩ := h
    obtain ⟨a, ha⟩ := Option.ne_none_iff_exists'.mp hsome
    exact .inr ⟨axis, a, haxis, ha⟩

instance [DecidableEq α] (v held : Vec3 α) : Decidable (v.OnAxis held) :=
  match h : held.normalize? with
  | none => isTrue fun axis haxis => by
    rw [h] at haxis
    cases haxis
  | some axis => decidable_of_iff ((v.across axis).normalize? = none)
    ⟨fun hnone axis' haxis' => by
      rw [h] at haxis'
      cases haxis'
      exact hnone, fun honAxis => honAxis axis h⟩

/-- With a vector on the axis there is no turn, whatever the other one is. -/
theorem aboutAxis?_eq_none (h : v.OnAxis held) (w : Vec3 α) :
    Quat.aboutAxis? held v w = none ∧ Quat.aboutAxis? held w v = none := by
  rw [Quat.aboutAxis?_eq_none, Quat.aboutAxis?_eq_none]
  cases haxis : held.normalize? with
  | none => exact ⟨.inl rfl, .inl rfl⟩
  | some axis =>
    exact ⟨.inr ⟨axis, rfl, .inl (h axis haxis)⟩, .inr ⟨axis, rfl, .inr (h axis haxis)⟩⟩

end Vec3.OnAxis

/-! ## Half turns -/

theorem Vec3.Opposed.across (h : g.Opposed w) (axis : Vec3 Float32) :
    (g.across axis).Opposed (w.across axis) :=
  h.sub (.smul_of_factors (h.dot_left axis) axis)

namespace Quat

/-- The real part of the half turn: the cosine of half of the angle, which is negative, as the other
parts of the identity are zero. -/
theorem half_turn_real (haxis : axis.Extends 2) (hθ : θ = Angle.halfTurn ∨ θ = -Angle.halfTurn) :
    (identity * ofAxisAngle axis θ).w.isFinite ∧
      singleValue (identity * ofAxisAngle axis θ).w < 0 := by
  have hcosine := Angle.cosine_quarter hθ
  have hunpack : (Float32.ofBits 0xb33bbd2e).toModel.unpack =
      .finite .negative 0xbbbd2e (-48) (by decide) := rfl
  have hneg : singleValue (Float32.ofBits 0xb33bbd2e) < 0 := by
    rw [singleValue, hunpack]
    exact value_negative _ _
  have hsine : Bounded 0 (Angle.sine (θ * 0.5)) := by
    rcases Angle.sine_quarter hθ with h | h
    · rw [h]
      exact Curve.bounded_one
    · rw [h]
      exact (Opposed.neg 1).bounded Curve.bounded_one
  have hzero : Vanishes 0 := ⟨rfl, rfl⟩
  have hpart : ∀ {t : Float32}, Bounded 2 t → Vanishes (0 * (t * Angle.sine (θ * 0.5))) :=
    fun ht => hzero.mul_right (ht.mul hsine (by decide)).1
  have hreal : (identity * ofAxisAngle axis θ).w =
      (1 * Float32.ofBits 0xb33bbd2e - 0 * (axis.x * Angle.sine (θ * 0.5))) +
        (-(0 * (axis.y * Angle.sine (θ * 0.5))) - 0 * (axis.z * Angle.sine (θ * 0.5))) := by
    rw [← hcosine]
    rfl
  rw [hreal, single_mul_comm 1, single_mul_one]
  obtain ⟨hfirst, hfirstValue⟩ := (hpart haxis.x).sub_value (x := Float32.ofBits 0xb33bbd2e) rfl
  obtain ⟨hboth, hvalue⟩ := ((hpart haxis.y).neg.sub (hpart haxis.z)).add_value hfirst
  exact ⟨hboth, by rwa [hvalue, hfirstValue]⟩

/-- Half a turn is not the identity. -/
theorem half_turn_ne_identity (haxis : axis.Extends 2)
    (hθ : θ = Angle.halfTurn ∨ θ = -Angle.halfTurn) :
    (identity * ofAxisAngle axis θ).normalize ≠ identity := by
  intro hidentity
  obtain ⟨hfinite, hneg⟩ := half_turn_real haxis hθ
  exact single_div_sqrt_ne_one hfinite hneg _ (congrArg Quat.w hidentity)

/-- Between a vector and the opposite one there is half a turn, if they have a direction across the
axis. -/
theorem aboutAxis?_opposed (haxis : held.normalize? = some axis)
    (ha : (g.across axis).normalize? = some a) (h : g.Opposed w) :
    ∃ q, aboutAxis? held g w = some q ∧ (identity * q).normalize ≠ identity := by
  obtain ⟨b, hb, hopposed⟩ := (h.across axis).normalize? ha
  refine ⟨_, aboutAxis?_eq_some haxis ha hb, ?_⟩
  have hsize := (Vec3.direction_bounds haxis).1
  obtain ⟨hcx, hcy, hcz⟩ := hopposed.cross_vanishes (Vec3.direction_bounds ha).1
  obtain ⟨hdot, hneg⟩ := hopposed.dot_neg ha
  have hsine : Vanishes (axis.dot (a.cross b)) :=
    ((hcx.mul_left hsize.x.1).add (hcy.mul_left hsize.y.1)).add (hcz.mul_left hsize.z.1)
  exact half_turn_ne_identity hsize (Angle.arcTangent2_of_negative hdot hneg hsine)

end Quat

/-! ## Any anchors -/

namespace Scene

section Anchors

variable {α : Type} [Scalar α] {s : Scene α} {id : NodeId} {h f t : Anchor α}

/-- The rotation of a node after a hold, a grab and an aim, whether they succeed or not. -/
def rotationAfter (s : Scene α) (id : NodeId) (h g t : Anchor α) : Quat α :=
  ((final ((do hold id h; grab id g; aim id t : Action α Unit) s)).node id).transform.rotation

theorem rotationAfter_own (hid : s.contains id) (hh : h.IsOwn id) (hf : f.IsOwn id)
    (ht : t.IsOwn id) : s.rotationAfter id h f t =
      let old := (s.node id).transform
      (Quat.aboutAxis? (old.scale * h.position) (old.scale * f.position)
        (old.scale * t.position)).elim old.rotation fun q => (old.rotation * q).normalize := by
  obtain ⟨s', hrun, hframe⟩ := hold_grab_aim hid hh hf ht
  rw [rotationAfter, hrun]
  exact congrArg Transform.rotation hframe

/-- Anchors of other nodes are refused, or they count as the vectors that they are resolved to. -/
theorem rotationAfter_cases (hid : s.contains id) (hh : h.IsOwn id) (f t : Anchor α) :
    s.rotationAfter id h f t = (s.node id).transform.rotation ∨
      ∃ v w, (f.IsOwn id → v = f.position) ∧ (t.IsOwn id → w = t.position) ∧
        s.rotationAfter id h f t = s.rotationAfter id h (.here v) (.here w) := by
  obtain ⟨s₁, hhold, hid₁, hnode₁⟩ := hold_own hid hh
  have hrun : ∀ f t, s.rotationAfter id h f t = ((final (EStateM.bind (grab id f)
      (fun _ => aim id t) s₁)).node id).transform.rotation := fun f t => by
    show ((final (EStateM.bind (hold id h) (fun _ => EStateM.bind (grab id f) fun _ => aim id t)
      s)).node id).transform.rotation = _
    simp only [EStateM.bind, hhold]
  have hhere : ∀ (s : Scene α) v, s.resolve id (.here v) = .ok v := fun _ _ => rfl
  rw [hrun]
  cases hf : s₁.resolve id f with
  | error e =>
    left
    have hgrab : grab id f s₁ = .error e s₁ := by simp only [grab, hf]
    simp only [EStateM.bind, hgrab, final, hnode₁]
  | ok v =>
    obtain ⟨s₂, hgrab, hid₂, hnode₂⟩ := grab_own hid₁ (g := .here v) trivial
    have hgrab' : grab id f s₁ = .ok () s₂ := by
      rw [← hgrab]
      simp only [grab, hf, hhere]
    have hown : f.IsOwn id → v = f.position := fun h => by
      rw [resolve_ok h] at hf
      cases hf
      rfl
    have hgrabbed : (s₂.node id).grabbed = some v := by rw [hnode₂]; rfl
    cases ht : s₂.resolve id t with
    | error e =>
      left
      have haim : aim id t s₂ = .error e s₂ := by simp only [aim, hid₂, hgrabbed, ht, if_true]
      simp only [EStateM.bind, hgrab', haim, final, hnode₂, hnode₁]
    | ok w =>
      refine .inr ⟨v, w, hown, fun h => ?_, ?_⟩
      · rw [resolve_ok h] at ht
        cases ht
        rfl
      · have haim : aim id t s₂ = aim id (.here w) s₂ := by simp only [aim, ht, hhere]
        rw [hrun]
        simp only [EStateM.bind, hgrab, hgrab', haim]

end Anchors

/-! ## Aims with a vector on the axis -/

theorem splat_one_mul (v : Vec3 Float32) : Vec3.splat 1 * v = v := by
  show (⟨1 * v.x, 1 * v.y, 1 * v.z⟩ : Vec3 Float32) = v
  simp only [single_mul_comm 1, single_mul_one]

section Plain

variable {s : Scene Float32} {id : NodeId} {h f t : Anchor Float32}

/-- On a node with unit scale and no rotation, nothing but the turn is left of the product. -/
theorem rotationAfter_plain (hid : s.contains id)
    (hscale : (s.node id).transform.scale = Vec3.splat 1)
    (hrotation : (s.node id).transform.rotation = Quat.identity)
    (hh : h.IsOwn id) (hf : f.IsOwn id) (ht : t.IsOwn id) : s.rotationAfter id h f t =
      (Quat.aboutAxis? h.position f.position t.position).elim Quat.identity
        fun q => (Quat.identity * q).normalize := by
  simpa only [hscale, hrotation, splat_one_mul] using rotationAfter_own hid hh hf ht

/-- It stays without rotation if there is no turn, whatever anchors of other nodes are resolved to. -/
theorem rotationAfter_eq_identity (hid : s.contains id)
    (hscale : (s.node id).transform.scale = Vec3.splat 1)
    (hrotation : (s.node id).transform.rotation = Quat.identity) (hh : h.IsOwn id)
    (hnone : ∀ v w, (f.IsOwn id → v = f.position) → (t.IsOwn id → w = t.position) →
      Quat.aboutAxis? h.position v w = none) : s.rotationAfter id h f t = Quat.identity := by
  rcases rotationAfter_cases hid hh f t with hsame | ⟨v, w, hv, hw, hsame⟩
  · rw [hsame, hrotation]
  · rw [hsame, @rotationAfter_plain s id h (.here v) (.here w) hid hscale hrotation hh trivial trivial]
    show (Quat.aboutAxis? h.position v w).elim _ _ = _
    rw [hnone v w hv hw, Option.elim_none]

end Plain

/-- In any scene, for a node with unit scale and no rotation, and for all held vectors: an aim with
a grabbed vector leaves the rotation as it is for all targets if and only if the grabbed vector is
on the axis as executed, that is if rounding leaves no residue of it that has a direction. Likewise
an aim at a target, for all grabbed vectors. -/
theorem aim_on_axis (s : Scene Float32) {id : NodeId} {h g : Anchor Float32} (hid : s.contains id)
    (hscale : (s.node id).transform.scale = Vec3.splat 1)
    (hrotation : (s.node id).transform.rotation = Quat.identity)
    (hh : h.IsOwn id) (hg : g.IsOwn id) :
    ((∀ t, s.rotationAfter id h g t = Quat.identity) ↔ g.position.OnAxis h.position) ∧
    ((∀ f, s.rotationAfter id h f g = Quat.identity) ↔ g.position.OnAxis h.position) := by
  rcases Vec3.OnAxis.or_residue g.position h.position with honAxis | ⟨axis, a, haxis, ha⟩
  · refine ⟨iff_of_true (fun t => ?_) honAxis, iff_of_true (fun f => ?_) honAxis⟩
    · refine rotationAfter_eq_identity hid hscale hrotation hh fun v w hv _ => ?_
      rw [hv hg]
      exact (honAxis.aboutAxis?_eq_none w).1
    · refine rotationAfter_eq_identity hid hscale hrotation hh fun v w _ hw => ?_
      rw [hw hg]
      exact (honAxis.aboutAxis?_eq_none v).2
  · have hresidue : ¬g.position.OnAxis h.position := fun honAxis => by
      rw [honAxis axis haxis] at ha
      cases ha
    obtain ⟨t, ht, hopposed⟩ : ∃ t : Anchor Float32, t.IsOwn id ∧ g.position.Opposed t.position :=
      ⟨.here ⟨-g.position.x, -g.position.y, -g.position.z⟩, trivial, .neg _⟩
    obtain ⟨b, hb, -⟩ := (hopposed.across axis).normalize? ha
    obtain ⟨q, hq, hne⟩ := Quat.aboutAxis?_opposed haxis ha hopposed
    obtain ⟨q', hq', hne'⟩ := Quat.aboutAxis?_opposed haxis hb hopposed.symm
    refine ⟨iff_of_false (fun hall => hne ?_) hresidue, iff_of_false (fun hall => hne' ?_) hresidue⟩
    · have hturned := rotationAfter_plain hid hscale hrotation hh hg ht
      rw [hall t, hq, Option.elim_some] at hturned
      exact hturned.symm
    · have hturned := rotationAfter_plain hid hscale hrotation hh ht hg
      rw [hall t, hq', Option.elim_some] at hturned
      exact hturned.symm

/-- A node with a leaning axis, the direction of `(1, 2, 2)`: of four times the held vector, rounding
leaves nothing across it. -/
theorem aim_on_axis_leaning :
    let s : Scene Float32 := empty.after [.add .identity]
    let h : Anchor Float32 := .here ⟨1, 2, 2⟩
    let g : Anchor Float32 := .here ⟨4, 8, 8⟩
    (s.contains 1 ∧ (s.node 1).transform.scale = Vec3.splat 1 ∧
      (s.node 1).transform.rotation = Quat.identity ∧ h.IsOwn 1 ∧ g.IsOwn 1) ∧
    (∃ axis, h.position.normalize? = some axis) ∧
    (∀ t, s.rotationAfter 1 h g t = Quat.identity) ∧
    ∀ f, s.rotationAfter 1 h f g = Quat.identity := by
  intro s h g
  have hon : g.position.OnAxis h.position := by decide +kernel
  have hboth := @aim_on_axis s 1 h g rfl rfl rfl trivial trivial
  exact ⟨⟨rfl, rfl, rfl, trivial, trivial⟩, Vec3.exists_direction_iff.mpr (by decide +kernel),
    hboth.1.mpr hon, hboth.2.mpr hon⟩

/-- Of `(1, 2, 3)`, rounding leaves a residue across its own direction: held and grabbed itself, it
turns the node. -/
theorem residue_turns :
    let s : Scene Float32 := empty.after [.add .identity]
    let h : Anchor Float32 := .here ⟨1, 2, 3⟩
    (s.node 1).transform.scale = Vec3.splat 1 ∧ (s.node 1).transform.rotation = Quat.identity ∧
      s.rotationAfter 1 h h (.here ⟨1, 0, 0⟩) ≠ Quat.identity := by
  decide +kernel

end Scene

end Espalier
