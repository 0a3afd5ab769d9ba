import Espalier.Proofs.Scene.Traversal

/-!
# What an edit leaves in place

An edit moves or links one node at most. All other nodes of the scene rest: they keep their frame
and their parent. Where a node is in space depends on the frames of the node and its ancestors
alone, so a node stays there while all of these rest.

Results:
1. `edit_rests`: the nodes that an edit does not move rest.
2. `worldMatrix_of_rests`: a node that rests with all its ancestors stays where it is in space.
3. `edit_worldMatrix`, `edit_worldPosition`: the two together, for one edit.
4. `Stays.ancestors`, `Stays.worldPosition`: the same where a whole scene stays while it grows.
-/

namespace Espalier

variable {α : Type}

/-- The node that an edit puts into another frame or links to a parent. -/
def Edit.moves : Edit α → Option NodeId
  | .setFrame node _ | .aim node _ => some node
  | .link _ child => some child
  | .join this _ => some this.node
  | .add _ | .register .. | .hang .. | .hold .. | .grab .. | .release _ => none

variable [Scalar α]

namespace Scene

/-- A node has the same parent and the same frame in both scenes. -/
structure Rests (s s' : Scene α) (id : NodeId) : Prop where
  parent : s'.parent? id = s.parent? id
  transform : (s'.node id).transform = (s.node id).transform

theorem rests_refl (s : Scene α) (id : NodeId) : Rests s s id := ⟨rfl, rfl⟩

theorem rests_trans {s₁ s₂ s₃ : Scene α} {id : NodeId} (h : Rests s₁ s₂ id)
    (h' : Rests s₂ s₃ id) : Rests s₁ s₃ id :=
  ⟨h'.parent.trans h.parent, h'.transform.trans h.transform⟩

theorem rests_of_node_eq {s s' : Scene α} {id : NodeId} (h : s'.node id = s.node id) :
    Rests s s' id :=
  ⟨congrArg Node.parent h, congrArg Node.transform h⟩

/-! ## Edits -/

theorem rests_push {s : Scene α} (n : Node α) {id : NodeId} (hid : s.contains id) :
    Rests s (s.push n) id :=
  rests_of_node_eq (by rw [node_push, if_neg (Nat.ne_of_lt (contains_iff.mp hid))])

theorem rests_modify (s : Scene α) {id j : NodeId} {f : Node α → Node α}
    (h : id = j → ∀ n, (f n).parent = n.parent ∧ (f n).transform = n.transform) :
    Rests s (s.modify id f) j := by
  constructor
  · rw [parent?, parent?, node_modify]
    split
    next hid => exact (h hid.1 _).1
    · rfl
  · rw [node_modify]
    split
    next hid => exact (h hid.1 _).2
    · rfl

theorem Adjusts.rests {s : Scene α} {id j : NodeId} {P : Node α → Node α → Prop} {β : Type}
    {r : EStateM.Result Failure (Scene α) β} (h : Adjusts P s id r)
    (hP : id = j → ∀ n n', P n n' → Node.Stands n n') : Rests s (final r) j := by
  cases h with
  | refused f => exact rests_refl s j
  | same b => exact rests_refl s j
  | adjusted b f hf =>
    refine rests_modify s fun heq n => ?_
    have hstands := hP heq _ _ (hf n)
    exact ⟨hstands.parent, hstands.transform⟩

theorem rests_linked {s : Scene α} {p c j : NodeId} (hfree : s.linkFailure? p c = none)
    (h : j ≠ c) : Rests s (s.linked p c) j :=
  ⟨by rw [parent?_linked hfree, if_neg h], by rw [node_linked hfree]⟩

theorem rests_link (s : Scene α) (p : NodeId) {c j : NodeId} (h : j ≠ c) :
    Rests s (final (link p c s)) j := by
  rcases link_cases p c s with ⟨f, hlink⟩ | ⟨hfree, hlink⟩
  · rw [hlink]
    exact rests_refl s j
  · rw [hlink]
    exact rests_linked hfree h

theorem rests_join (s : Scene α) (this target : Point α) {j : NodeId} (h : j ≠ this.node) :
    Rests s (final (join this target s)) j := by
  rcases join_cases this target s with ⟨f, hjoin⟩ | ⟨hfree, hjoin⟩
  · rw [hjoin]
    exact rests_refl s j
  · rw [hjoin]
    exact rests_trans (rests_linked hfree h) (rests_modify _ fun heq => absurd heq.symm h)

theorem rests_hang (s : Scene α) (p : Point α) (mesh : Mesh) {j : NodeId} (hj : s.contains j) :
    Rests s (final (hang p mesh s)) j := by
  rw [final_hang]
  exact rests_trans (rests_push _ hj) (rests_link _ p.node (Nat.ne_of_lt (contains_iff.mp hj)))

/-- The nodes of a scene that an edit does not move rest, also when it is refused. -/
theorem edit_rests (e : Edit α) (s : Scene α) {id : NodeId} (hid : s.contains id)
    (h : e.moves ≠ some id) : Rests s (final (e.run s)) id := by
  cases e with
  | add t => exact rests_push _ hid
  | register node name position =>
    exact (register_adjusts s node name position).rests fun _ _ _ h => h
  | setFrame node t =>
    exact (setFrame_adjusts s node t).rests fun heq => absurd (congrArg some heq) h
  | link parent child => exact rests_link s parent fun heq => h (congrArg some heq.symm)
  | join this target => exact rests_join s this target fun heq => h (congrArg some heq.symm)
  | hang p mesh => exact rests_hang s p mesh hid
  | hold node anchor => exact (hold_adjusts s node anchor).rests fun _ _ _ h => h
  | grab node anchor => exact (grab_adjusts s node anchor).rests fun _ _ _ h => h
  | aim node target =>
    exact (aim_adjusts s node target).rests fun heq => absurd (congrArg some heq) h
  | release node => exact (release_adjusts s node).rests fun _ _ _ h => h

/-! ## Places in space -/

/-- A node stays where it is in space if it and all its ancestors rest. -/
theorem worldMatrix_of_rests {s s' : Scene α} (hf : Forest s) (hf' : Forest s') {id : NodeId}
    (h : ∀ a ∈ id :: s.ancestors id, Rests s s' a) : s'.worldMatrix id = s.worldMatrix id := by
  obtain ⟨as, hclimb⟩ := hf.ascends id
  induction hclimb with
  | @top id htop =>
    have hid := h id List.mem_cons_self
    have htop' : s'.parent? id = none := hid.parent.trans htop
    rw [worldMatrix_of_top hf htop, worldMatrix_of_top hf' htop', localMatrix, localMatrix,
      hid.transform]
  | @step id p as hp _ ih =>
    have hid := h id List.mem_cons_self
    have hp' : s'.parent? id = some p := hid.parent.trans hp
    rw [hf.ancestors_of_parent hp] at h
    rw [worldMatrix_of_parent hf hp, worldMatrix_of_parent hf' hp',
      ih fun a ha => h a (List.mem_cons_of_mem _ ha), localMatrix, localMatrix, hid.transform]

theorem Forest.contains_above {s : Scene α} (hf : Forest s) {id : NodeId} (hid : s.contains id) :
    ∀ a ∈ id :: s.ancestors id, s.contains a := by
  intro a ha
  rcases List.mem_cons.mp ha with rfl | ha
  · exact hid
  · exact hf.contains_of_ascends (hf.ascends_ancestors id) a ha

/-- An edit leaves a node where it is in space unless it moves the node or one of its ancestors. -/
theorem edit_worldMatrix (e : Edit α) {s : Scene α} (hf : Forest s) {id : NodeId}
    (hid : s.contains id) (h : ∀ a ∈ id :: s.ancestors id, e.moves ≠ some a) :
    (final (e.run s)).worldMatrix id = s.worldMatrix id :=
  worldMatrix_of_rests hf (evolves_forest (edit_evolves e s) hf) fun a ha =>
    edit_rests e s (hf.contains_above hid a ha) (h a ha)

theorem edit_worldPosition (e : Edit α) {s : Scene α} (hf : Forest s) {id : NodeId}
    (hid : s.contains id) (h : ∀ a ∈ id :: s.ancestors id, e.moves ≠ some a) :
    (final (e.run s)).worldPosition id = s.worldPosition id := by
  rw [worldPosition, worldPosition, edit_worldMatrix e hf hid h]

/-! ## Scenes that stay -/

/-- The second scene grew from the first and left its nodes where they were. -/
structure Stays (s s' : Scene α) : Prop where
  evolves : Evolves s s'
  rests : ∀ id, s.contains id → Rests s s' id

theorem stays_refl (s : Scene α) : Stays s s := ⟨evolves_refl s, fun id _ => rests_refl s id⟩

theorem Stays.contains {s s' : Scene α} (h : Stays s s') {id : NodeId} (hid : s.contains id) :
    s'.contains id :=
  contains_iff.mpr (Nat.lt_of_lt_of_le (contains_iff.mp hid) (evolves_extends h.evolves).size)

theorem stays_trans {s₁ s₂ s₃ : Scene α} (h : Stays s₁ s₂) (h' : Stays s₂ s₃) : Stays s₁ s₃ where
  evolves := evolves_trans h.evolves h'.evolves
  rests id hid := rests_trans (h.rests id hid) (h'.rests id (h.contains hid))

section Stays

variable {s s' : Scene α}

theorem Stays.isStructural (h : Stays s s') {id : NodeId} (hid : s.contains id) :
    s'.isStructural id = s.isStructural id := by
  have hkind := (evolves_extends h.evolves).kind id hid
  rw [Scene.isStructural, Scene.isStructural, hid, h.contains hid, Node.isStructural, hkind]
  rfl

/-- Where nodes stay, the nodes above them do, and so the climbs. -/
theorem Stays.ascends (h : Stays s s') (hf : Forest s) {id : NodeId} {as : List NodeId}
    (hid : s.contains id) (has : s.Ascends id as) : s'.Ascends id as := by
  induction has with
  | @top id htop => exact .top ((h.rests id hid).parent.trans htop)
  | @step id p as hp _ ih =>
    exact .step ((h.rests id hid).parent.trans hp) (ih (hf.parent_mem id p hp))

theorem Stays.ancestors (h : Stays s s') (hf : Forest s) {id : NodeId} (hid : s.contains id) :
    s'.ancestors id = s.ancestors id :=
  (evolves_forest h.evolves hf).ancestors_eq (h.ascends hf hid (hf.ascends_ancestors id))

theorem Stays.worldPosition (h : Stays s s') (hf : Forest s) {id : NodeId} (hid : s.contains id) :
    s'.worldPosition id = s.worldPosition id := by
  rw [Scene.worldPosition, Scene.worldPosition, worldMatrix_of_rests hf
    (evolves_forest h.evolves hf) fun a ha => h.rests a (hf.contains_above hid a ha)]

end Stays

end Scene

end Espalier
