import Espalier.Proofs.Scene.Planted

/-!
# Grafting one node on a scene

A new node is added, may get named points, is linked to a node that was there, and may then be
turned. None of these edits is refused: what a check could find wrong concerns nodes that already
have a parent, names that are taken, or frames of other nodes. The old nodes are what they were, but
for one more child of one of them, and the new one is known but for the angles that it was turned by.

Results:
1. `Planted.grafted`: a planted scene with one more node, linked to one of its own, is planted.
2. `Grafted.register_ok`, `Grafted.join_ok`, `hang_ok`: the edits that build the new node.
3. `Grafted.hold_ok`, `Grafted.grab_ok`, `Grafted.aim_ok`, `Grafted.release_ok`: those that turn it.
-/

namespace Espalier

variable {α : Type}

namespace Anchor

/-- The anchor is given in the frame of the node itself, so that no frame matters. -/
def IsOwn (id : NodeId) : Anchor α → Prop
  | .here _ => True
  | .point p => p.node = id

/-- The coordinates of an anchor, in whichever frame they are given. -/
def position : Anchor α → Vec3 α
  | .here v => v
  | .point p => p.position

end Anchor

/-- The node with another rotation. -/
def Node.rotated (n : Node α) (rotation : Quat α) : Node α :=
  { n with transform := { n.transform with rotation } }

variable [Scalar α]

/-- A leaf at a point. -/
def Node.leaf (p : Point α) (mesh : Mesh) : Node α :=
  { isolated (.geometry mesh) (.ofPosition p.position) with parent := some p.node }

namespace Scene

variable {s s' s₁ s₂ : Scene α} {n : Node α}

/-! ## One node more -/

/-- The second scene has one node more, the given one. The nodes of the first are as they were, but
that the new node is the last child of its parent. -/
structure Grafted (s : Scene α) (n : Node α) (s' : Scene α) : Prop where
  evolves : Evolves s s'
  size : s'.size = s.size + 1
  node : ∀ id, s'.node id =
    if id = s.size then n
    else if n.parent = some id then { s.node id with children := s.children id ++ [s.size] }
    else s.node id

namespace Grafted

theorem contains (h : Grafted s n s') : s'.contains s.size :=
  contains_iff.mpr (h.size ▸ Nat.lt_succ_self _)

theorem node_self (h : Grafted s n s') : s'.node s.size = n := by
  rw [h.node, if_pos rfl]

theorem parent (h : Grafted s n s') : s'.parent? s.size = n.parent :=
  congrArg Node.parent h.node_self

theorem isStructural (h : Grafted s n s') : s'.isStructural s.size = n.isStructural := by
  rw [Scene.isStructural, h.contains, Bool.true_and, h.node_self]

theorem children_old (h : Grafted s n s') {id : NodeId} (hid : s.contains id) :
    s'.children id = if n.parent = some id then s.children id ++ [s.size] else s.children id := by
  rw [children, h.node, if_neg (Nat.ne_of_lt (contains_iff.mp hid))]
  split <;> rfl

/-- An old node has at most one child more. -/
theorem node_old (h : Grafted s n s') {id : NodeId} (hid : s.contains id) :
    s'.node id = { s.node id with children := s'.children id } := by
  rw [h.children_old hid, h.node, if_neg (Nat.ne_of_lt (contains_iff.mp hid))]
  split <;> rfl

theorem stays (h : Grafted s n s') : Stays s s' where
  evolves := h.evolves
  rests id hid := by
    constructor
    · rw [parent?, h.node_old hid]
      rfl
    · rw [h.node_old hid]

/-- The new node is adjusted. -/
theorem modify (h : Grafted s n s₁) {f : Node α → Node α} (hf : ∀ n, Node.Keeps n (f n)) :
    Grafted s (f n) (s₁.modify s.size f) where
  evolves := evolves_trans h.evolves (evolves_of_change (.adjust s₁ s.size f hf))
  size := (size_modify _ _ _).trans h.size
  node id := by
    rw [node_modify, (hf n).parent]
    by_cases hid : id = s.size
    · subst hid
      rw [if_pos ⟨rfl, h.contains⟩, if_pos rfl, h.node_self]
    · rw [if_neg fun hself => hid hself.1.symm, h.node, if_neg hid, if_neg hid]

end Grafted

/-- A planted scene with a new node that hangs from one of its own is planted. -/
theorem Planted.grafted (h : Planted s) {p : NodeId} (hp : s.contains p) (hs : Grafted s n s')
    (hn : n.parent = some p) : Planted s' where
  forest := evolves_forest hs.evolves h.forest
  parent id hid hne := by
    have hlt : id < s.size + 1 := hs.size ▸ contains_iff.mp hid
    rcases Nat.lt_succ_iff_lt_or_eq.mp hlt with hold | rfl
    · obtain ⟨q, hq, hparent⟩ := h.parent id (contains_iff.mpr hold) hne
      exact ⟨q, hq, (hs.stays.rests id (contains_iff.mpr hold)).parent.trans hparent⟩
    · exact ⟨p, contains_iff.mp hp, hs.parent.trans hn⟩

/-! ## Building the new node -/

theorem push_grafted (s : Scene α) (kind : NodeKind) (t : Transform α) :
    Grafted s (.isolated kind t) (s.push (.isolated kind t)) where
  evolves := evolves_of_change (.grow s kind t)
  size := size_push s _
  node id := by
    rw [node_push]
    rfl

theorem add_ok (s : Scene α) (t : Transform α) :
    ∃ s₁, add t s = .ok s.size s₁ ∧ Grafted s (.isolated .structural t) s₁ :=
  ⟨_, rfl, push_grafted s .structural t⟩

namespace Grafted

theorem register_ok (h : Grafted s n s₁) (name : String) (hname : n.point? name = none)
    (v : Vec3 α) : ∃ s₂, register s.size name v s₁ = .ok ⟨s.size, v⟩ s₂ ∧
      Grafted s { n with points := n.points ++ [(name, v)] } s₂ := by
  refine ⟨_, ?_, h.modify (f := fun n => { n with points := n.points ++ [(name, v)] }) fun _ =>
    ⟨rfl, rfl, rfl, List.prefix_append _ _⟩⟩
  rw [register, if_pos h.contains, h.node_self, hname]

/-- The new node can be linked to any other: it has no parent yet, and it is above no node, as the
climbs of the others are what they were. -/
theorem linkFailure?_eq_none (h : Grafted s n s₁) (hf : Forest s) {p : NodeId}
    (hp : s.contains p) (hfree : n.parent = none) : s₁.linkFailure? p s.size = none := by
  have hne : p ≠ s.size := Nat.ne_of_lt (contains_iff.mp hp)
  have hroot : s.size ≠ root := Nat.ne_of_gt (contains_iff.mp hf.root_mem)
  have hcycle : s.size ∉ s₁.ancestors p := by
    rw [h.stays.ancestors hf hp]
    intro hmem
    have hmem' := hf.contains_above hp _ (List.mem_cons_of_mem _ hmem)
    exact Nat.lt_irrefl _ (contains_iff.mp hmem')
  exact linkFailure?_eq_none_iff.mpr
    ⟨hne, hroot, h.contains, h.parent.trans hfree, h.stays.contains hp, hcycle⟩

theorem linked (h : Grafted s n s₁) {p : NodeId} (hp : s.contains p) (hfree : n.parent = none)
    (hlink : s₁.linkFailure? p s.size = none) :
    Grafted s { n with parent := some p } (s₁.linked p s.size) where
  evolves := evolves_trans h.evolves (evolves_of_change (.link s₁ p s.size hlink))
  size := (size_linked _ _ _).trans h.size
  node id := by
    have hne : s.size ≠ p := Nat.ne_of_gt (contains_iff.mp hp)
    rw [node_linked hlink, parent?, children]
    by_cases hid : id = s.size
    · subst hid
      simp [h.node_self, hne]
    · have hold : s₁.node id = s.node id := by
        simp [h.node, hid, hfree]
      by_cases hparent : p = id <;> simp [hold, hid, hparent, eq_comm, children]

end Grafted

theorem link_ok {p c : NodeId} (h : s.linkFailure? p c = none) :
    link p c s = .ok () (s.linked p c) := by
  rw [link, h]

theorem Grafted.join_ok (h : Grafted s n s₁) (hf : Forest s) {target : Point α}
    (hp : s.contains target.node) (hfree : n.parent = none) (v : Vec3 α) :
    ∃ s₂, join ⟨s.size, v⟩ target s₁ = .ok () s₂ ∧
      Grafted s (Node.stuck v target.position { n with parent := some target.node }) s₂ := by
  have hlink := h.linkFailure?_eq_none hf hp hfree
  have hne : s.size ≠ target.node := Nat.ne_of_gt (contains_iff.mp hp)
  refine ⟨(s₁.linked target.node s.size).modify s.size (Node.stuck v target.position), ?_,
    (h.linked hp hfree hlink).modify fun n => n.stuck_keeps _ _⟩
  rw [join, if_neg hne, link_ok hlink]
  rfl

/-- A leaf can be hung at any point of the scene. -/
theorem hang_ok (hf : Forest s) {p : Point α} (hp : s.contains p.node) (mesh : Mesh) :
    ∃ s', hang p mesh s = .ok s.size s' ∧ Grafted s (.leaf p mesh) s' := by
  have hpush := push_grafted s (.geometry mesh) (.ofPosition p.position)
  have hlink := hpush.linkFailure?_eq_none hf hp rfl
  exact ⟨_, by simp only [hang, link_ok hlink], hpush.linked hp rfl hlink⟩

/-! ## Turning the new node -/

theorem resolve_ok {id : NodeId} {a : Anchor α} (h : a.IsOwn id) :
    s.resolve id a = .ok a.position := by
  cases a with
  | here v => rfl
  | point p => exact if_pos h

namespace Grafted

variable {a : Anchor α}

theorem hold_ok (h : Grafted s n s₁) (ha : a.IsOwn s.size) :
    ∃ s₂, hold s.size a s₁ = .ok () s₂ ∧ Grafted s { n with held := some a.position } s₂ := by
  refine ⟨_, ?_, h.modify (f := fun n => { n with held := some a.position }) fun _ =>
    ⟨rfl, rfl, rfl, List.prefix_refl _⟩⟩
  rw [hold, resolve_ok ha]
  exact if_pos h.contains

theorem grab_ok (h : Grafted s n s₁) (ha : a.IsOwn s.size) :
    ∃ s₂, grab s.size a s₁ = .ok () s₂ ∧ Grafted s { n with grabbed := some a.position } s₂ := by
  refine ⟨_, ?_, h.modify (f := fun n => { n with grabbed := some a.position }) fun _ =>
    ⟨rfl, rfl, rfl, List.prefix_refl _⟩⟩
  rw [grab, resolve_ok ha]
  exact if_pos h.contains

/-- A node with a grabbed position can be aimed, also where no direction is defined. -/
theorem aim_ok (h : Grafted s n s₁) {v : Vec3 α} (hv : n.grabbed = some v) (ha : a.IsOwn s.size) :
    ∃ s₂ rotation, aim s.size a s₁ = .ok () s₂ ∧ Grafted s (n.rotated rotation) s₂ := by
  rw [aim, if_pos h.contains, h.node_self, hv]
  simp only [resolve_ok ha]
  cases n.correction? v a.position with
  | none => exact ⟨s₁, n.transform.rotation, rfl, h⟩
  | some q =>
    exact ⟨_, _, rfl, h.modify (f := fun n => n.turn q) fun _ =>
      ⟨rfl, rfl, rfl, List.prefix_refl _⟩⟩

theorem release_ok (h : Grafted s n s₁) :
    ∃ s₂, release s.size s₁ = .ok () s₂ ∧
      Grafted s { n with held := none, grabbed := none } s₂ :=
  ⟨_, if_pos h.contains, h.modify (f := fun n => { n with held := none, grabbed := none }) fun _ =>
    ⟨rfl, rfl, rfl, List.prefix_refl _⟩⟩

end Grafted

end Scene

end Espalier
