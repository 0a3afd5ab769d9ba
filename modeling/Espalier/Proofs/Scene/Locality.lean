import Espalier.Proofs.Scene.Rest

/-!
# How far an edit reaches

An edit that moves no node leaves every node of the scene where it is in space. One that moves a
node takes the nodes below it along and leaves all others; of frames it changes that of the moved
node alone. The two edits that move a node by what they find in the scene change no more than they
have to: `aim` a rotation, `join` a link and a position.

Results:
1. `correction?_eq_none`: a node finds no turn where a direction is missing, and nowhere else.
2. `aim_turned`, `join_joined`: what an aim and a join change, and that they change nothing else.
3. `edit_local`: how far an edit of a forest reaches in space.
4. `history_local`: all of these, in any scene that a history has made.
-/

namespace Espalier

variable {α : Type} [Scalar α]

/-! ## Missing directions -/

/-- The part of a vector across an axis. -/
def Vec3.across (v axis : Vec3 α) : Vec3 α := v - v.dot axis • axis

theorem Quat.aboutAxis?_eq_none {held a b : Vec3 α} :
    aboutAxis? held a b = none ↔ held.normalize? = none ∨
      ∃ axis, held.normalize? = some axis ∧
        ((a.across axis).normalize? = none ∨ (b.across axis).normalize? = none) := by
  simp only [aboutAxis?, Vec3.across]
  cases held.normalize? with
  | none => simp
  | some axis =>
    cases ha : (a - a.dot axis • axis).normalize? with
    | none => simp [ha]
    | some a' => cases hb : (b - b.dot axis • axis).normalize? <;> simp [ha, hb]

theorem Quat.aboutAxis?_eq_some {held a b axis start stop : Vec3 α}
    (haxis : held.normalize? = some axis) (ha : (a.across axis).normalize? = some start)
    (hb : (b.across axis).normalize? = some stop) : aboutAxis? held a b =
      some (ofAxisAngle axis (Scalar.arctan2 (axis.dot (start.cross stop)) (start.dot stop))) := by
  rw [Vec3.across] at ha hb
  simp only [aboutAxis?, haxis, ha, hb, Option.bind_eq_bind, Option.bind_some]

theorem Quat.shortestArc?_eq_none {a b : Vec3 α} :
    shortestArc? a b = none ↔ a.normalize? = none ∨ b.normalize? = none := by
  rw [shortestArc?]
  cases a.normalize? with
  | none => simp
  | some a => cases b.normalize? <;> simp

/-- There is no turn of the node that makes a grabbed position face a target. With a held position,
the axis has no direction or one of the other two has none across it; without one, one of the two
has no direction at all. -/
def Node.Degenerate (n : Node α) (grabbed target : Vec3 α) : Prop :=
  let scale := n.transform.scale
  match n.held with
  | some held => (scale * held).normalize? = none ∨
      ∃ axis, (scale * held).normalize? = some axis ∧
        (((scale * grabbed).across axis).normalize? = none ∨
          ((scale * target).across axis).normalize? = none)
  | none => (scale * grabbed).normalize? = none ∨ (scale * target).normalize? = none

theorem Node.correction?_eq_none {n : Node α} {grabbed target : Vec3 α} :
    n.correction? grabbed target = none ↔ n.Degenerate grabbed target := by
  unfold correction? Degenerate
  cases n.held with
  | none => exact Quat.shortestArc?_eq_none
  | some held => exact Quat.aboutAxis?_eq_none

namespace Scene

/-! ## Aim and join -/

/-- What may come of an aim. One that fails changes nothing. One that succeeds changes the rotation
of the node at most, and nothing at all where there is no turn. -/
def Turned (s : Scene α) (n : NodeId) (target : Anchor α) :
    EStateM.Result Failure (Scene α) Unit → Prop
  | .error _ s' => s' = s
  | .ok _ s' => ∃ grabbed v, (s.node n).grabbed = some grabbed ∧ s.resolve n target = .ok v ∧
      ((s.node n).Degenerate grabbed v → s' = s) ∧ s'.size = s.size ∧
      ∃ rotation, ∀ id, s'.node id =
        if id = n then { s.node id with transform := { (s.node id).transform with rotation } }
        else s.node id

theorem aim_turned (s : Scene α) (n : NodeId) (target : Anchor α) :
    s.Turned n target (aim n target s) := by
  rcases aim_cases n target s with ⟨f, h⟩ | ⟨hn, grabbed, v, hgrabbed, hv, ⟨-, h⟩ | ⟨q, hq, h⟩⟩
  · rw [h]
    rfl
  · rw [h]
    refine ⟨grabbed, v, hgrabbed, hv, fun _ => rfl, rfl, (s.node n).transform.rotation,
      fun id => ?_⟩
    split
    next hid => rw [hid]
    · rfl
  · rw [h]
    refine ⟨grabbed, v, hgrabbed, hv, fun hdegenerate => ?_, size_modify s n _,
      ((s.node n).transform.rotation * q).normalize, fun id => ?_⟩
    · rw [Node.correction?_eq_none.mpr hdegenerate] at hq
      cases hq
    · rw [node_modify]
      by_cases hid : id = n
      · subst hid
        rw [if_pos ⟨rfl, hn⟩, if_pos rfl]
        rfl
      · rw [if_neg fun h => hid h.1.symm, if_neg hid]

/-- What may come of a join. One that fails changes nothing. One that succeeds changes the parent
and the position of the one node and the children of the other. -/
def Joined (s : Scene α) (this target : Point α) : EStateM.Result Failure (Scene α) Unit → Prop
  | .error _ s' => s' = s
  | .ok _ s' => s'.size = s.size ∧ ∀ id,
      let t := (s.node id).transform
      s'.node id = { s.node id with
        parent := if id = this.node then some target.node else s.parent? id
        children := if id = target.node then s.children id ++ [this.node] else s.children id
        transform :=
          if id = this.node then
            { t with position := t.stuckPosition this.position target.position }
          else t }

theorem join_joined (s : Scene α) (this target : Point α) :
    s.Joined this target (join this target s) := by
  rcases join_cases this target s with ⟨f, h⟩ | ⟨hfree, h⟩
  · rw [h]
    rfl
  · obtain ⟨-, -, hthis, -, -, -⟩ := linkFailure?_eq_none hfree
    rw [h]
    refine ⟨(size_modify _ _ _).trans (size_linked _ _ _), fun id => ?_⟩
    rw [node_modify, node_linked hfree]
    by_cases hid : id = this.node
    · subst hid
      rw [if_pos ⟨rfl, by rwa [contains_iff, size_linked, ← contains_iff]⟩]
      simp [Node.stuck]
    · simp [hid, Ne.symm hid]

/-! ## Reach in space -/

/-- What an edit leaves as it is. -/
structure Local (s : Scene α) (e : Edit α) : Prop where
  /-- An edit that moves no node leaves all nodes where they are. -/
  still : e.moves = none → ∀ id, s.contains id →
    (final (e.run s)).worldMatrix id = s.worldMatrix id
  /-- One that moves a node leaves all nodes where they are that are not below it. -/
  outside : ∀ n, e.moves = some n → ∀ id, s.contains id → id ≠ n → id ∉ s.descendants n →
    (final (e.run s)).worldMatrix id = s.worldMatrix id
  /-- It puts no node but that one into another frame. -/
  frames : ∀ id, s.contains id → e.moves ≠ some id →
    ((final (e.run s)).node id).transform = (s.node id).transform

theorem edit_local {s : Scene α} (hf : Forest s) (e : Edit α) : s.Local e where
  still hmoves id hid := edit_worldMatrix e hf hid fun a _ ha => by rw [hmoves] at ha; cases ha
  outside n hmoves id hid hne hbelow := by
    refine edit_worldMatrix e hf hid fun a ha heq => ?_
    rw [hmoves] at heq
    cases heq
    rcases List.mem_cons.mp ha with rfl | ha
    · exact hne rfl
    · exact hbelow ((mem_descendants hf).mpr ha)
  frames _ hid hmoves := (edit_rests e s hid hmoves).transform

/-- In any scene that a history has made, edits reach no further than to the node that they move
and those below it. An aim turns that node and does nothing else, and a join places and links it. -/
theorem history_local (es : List (Edit α)) :
    let s : Scene α := empty.after es
    (∀ e, s.Local e) ∧
    (∀ n target, s.Turned n target (aim n target s)) ∧
    ∀ this target, s.Joined this target (join this target s) := by
  intro s
  exact ⟨edit_local (after_forest es), aim_turned s, join_joined s⟩

end Scene

end Espalier
