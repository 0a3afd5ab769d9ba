import Espalier.Proofs.Grammar.Segment

/-!
# What is refused leaves no trace

An edit that finds something wrong has changed nothing yet: `join` checks the link before it moves
the node, and the positions of an aim are resolved before the node is turned. Two operations change
the scene first, `hang` and the growth of a segment, which put a new node into it; there, what comes
later cannot fail, because a new node is free and below no other.

Results:
1. `edit_atomic`: an edit of nodes of a forest succeeds, or is refused and leaves the scene.
2. `history_refuses`: the same in any scene that a history has made, where a leaf can be hung and a
   segment grown at every point, whatever the numbers are.
-/

namespace Espalier

variable {α : Type}

/-- The nodes that an anchor refers to. -/
def Anchor.nodes : Anchor α → List NodeId
  | .here _ => []
  | .point p => [p.node]

/-- The nodes that an edit refers to. -/
def Edit.nodes : Edit α → List NodeId
  | .add _ => []
  | .register node _ _ | .setFrame node _ | .release node => [node]
  | .link parent child => [parent, child]
  | .join this target => [this.node, target.node]
  | .hang p _ => [p.node]
  | .hold node anchor | .grab node anchor | .aim node anchor => node :: anchor.nodes

namespace Scene

variable {s : Scene α} {id : NodeId}

/-- The action has succeeded, or it was refused with an error and has left the scene as it was. -/
def Atomic {β : Type} (s : Scene α) : EStateM.Result Failure (Scene α) β → Prop
  | .ok _ _ => True
  | .error f s' => s' = s ∧ ∃ err, f = .error err

/-! ## Edits -/

theorem update_atomic (hid : s.contains id) (f : Node α → Node α) :
    s.Atomic (update id f s) := by
  rw [update, if_pos hid]
  exact trivial

variable [Scalar α]

theorem register_atomic (hid : s.contains id) (name : String) (v : Vec3 α) :
    s.Atomic (register id name v s) := by
  rw [register, if_pos hid]
  split
  · exact ⟨rfl, _, rfl⟩
  · exact trivial

/-- A position that cannot be brought into the frame of a node is an error, not a fault. -/
theorem resolve_cases (hid : s.contains id) {a : Anchor α} (ha : ∀ n ∈ a.nodes, s.contains n) :
    (∃ v, s.resolve id a = .ok v) ∨ ∃ err, s.resolve id a = .error (.error err) := by
  cases a with
  | here v => exact .inl ⟨v, rfl⟩
  | point p =>
    have hp : s.contains p.node := ha _ List.mem_cons_self
    simp only [resolve, hp, hid, Bool.not_true, Bool.false_eq_true, if_false]
    split
    · exact .inl ⟨_, rfl⟩
    · split
      · exact .inl ⟨_, rfl⟩
      · exact .inr ⟨_, rfl⟩

section Anchors

variable {a : Anchor α}

/-- A node is changed once a position was brought into its frame, as by `hold` and `grab`. -/
theorem resolved_atomic (hid : s.contains id) (ha : ∀ n ∈ a.nodes, s.contains n)
    (f : Vec3 α → Node α → Node α) :
    s.Atomic (match s.resolve id a with
      | .error e => .error e s
      | .ok v => update id (f v) s) := by
  rcases resolve_cases hid ha with ⟨v, h⟩ | ⟨err, h⟩
  · rw [h]
    exact update_atomic hid _
  · rw [h]
    exact ⟨rfl, err, rfl⟩

theorem aim_atomic (hid : s.contains id) (ha : ∀ n ∈ a.nodes, s.contains n) :
    s.Atomic (aim id a s) := by
  rw [aim, if_pos hid]
  split
  · exact ⟨rfl, _, rfl⟩
  next grabbed _ =>
    rcases resolve_cases hid ha with ⟨v, h⟩ | ⟨err, h⟩
    · simp only [h]
      split <;> exact trivial
    · rw [h]
      exact ⟨rfl, err, rfl⟩

end Anchors

section Links

variable {p c : NodeId}

theorem linkFailure?_error (hp : s.contains p) (hc : s.contains c) {f : Failure}
    (h : s.linkFailure? p c = some f) : ∃ err, f = .error err := by
  simp only [linkFailure?, hp, hc, Bool.not_true, Bool.false_eq_true, if_false] at h
  split at h
  · exact ⟨_, (Option.some.inj h).symm⟩
  · split at h
    · exact ⟨_, (Option.some.inj h).symm⟩
    · split at h
      · exact ⟨_, (Option.some.inj h).symm⟩
      · split at h
        · exact ⟨_, (Option.some.inj h).symm⟩
        · cases h

theorem link_atomic (hp : s.contains p) (hc : s.contains c) : s.Atomic (link p c s) := by
  rw [link]
  split
  next f h => exact ⟨rfl, linkFailure?_error hp hc h⟩
  · exact trivial

end Links

/-- A join is refused by what it checks itself or by the link, and both come before the move. -/
theorem join_atomic {this target : Point α} (hthis : s.contains this.node)
    (htarget : s.contains target.node) : s.Atomic (join this target s) := by
  have hlink := link_atomic htarget hthis
  rw [join]
  split
  · exact ⟨rfl, _, rfl⟩
  · split
    next h =>
      rw [h] at hlink
      exact hlink
    · exact trivial

/-- An edit of nodes that the scene has is carried out or leaves the scene as it was. -/
theorem edit_atomic (hf : Forest s) (e : Edit α) (h : ∀ id ∈ e.nodes, s.contains id) :
    s.Atomic (e.run s) := by
  cases e with
  | add t => exact trivial
  | register node name position => exact register_atomic (h _ List.mem_cons_self) name position
  | setFrame node t => exact update_atomic (h _ List.mem_cons_self) _
  | link parent child =>
    exact link_atomic (h _ List.mem_cons_self) (h _ (List.mem_cons_of_mem _ List.mem_cons_self))
  | join this target =>
    exact join_atomic (h _ List.mem_cons_self) (h _ (List.mem_cons_of_mem _ List.mem_cons_self))
  | hang p mesh =>
    obtain ⟨s', hhang, -⟩ := hang_ok hf (h p.node List.mem_cons_self) mesh
    show s.Atomic (hang p mesh s)
    rw [hhang]
    exact trivial
  | hold node anchor =>
    obtain ⟨hnode, hanchor⟩ := List.forall_mem_cons.mp h
    exact resolved_atomic hnode hanchor fun v n => { n with held := some v }
  | grab node anchor =>
    obtain ⟨hnode, hanchor⟩ := List.forall_mem_cons.mp h
    exact resolved_atomic hnode hanchor fun v n => { n with grabbed := some v }
  | aim node anchor =>
    obtain ⟨hnode, hanchor⟩ := List.forall_mem_cons.mp h
    exact aim_atomic hnode hanchor
  | release node => exact update_atomic (h _ List.mem_cons_self) _

/-! ## Histories -/

/-- In any scene that a history has made, an edit of its nodes that fails is refused with an error
and leaves the scene as it was. At every point of the scene a leaf can be hung and a segment grown,
of any length and at any angles. -/
theorem history_refuses (es : List (Edit Float32)) :
    let s : Scene Float32 := empty.after es
    (∀ e : Edit Float32, (∀ id ∈ e.nodes, s.contains id) →
      ∀ f s', e.run s = .error f s' → s' = s ∧ ∃ err, f = .error err) ∧
    ∀ place, s.contains place.node →
      (∀ mesh, ∃ s', hang place mesh s = .ok s.size s') ∧
      ∀ length twist tilt, ∃ tip s', addSegment place length twist tilt s = .ok tip s' := by
  intro s
  have hf : Forest s := after_forest es
  refine ⟨fun e hnodes f s' hrun => ?_, fun place hplace => ⟨fun mesh => ?_, ?_⟩⟩
  · have hatomic := edit_atomic hf e hnodes
    rw [hrun] at hatomic
    exact hatomic
  · obtain ⟨s', hhang, -⟩ := hang_ok hf hplace mesh
    exact ⟨s', hhang⟩
  · intro length twist tilt
    obtain ⟨s', -, hadd, -⟩ := addSegment_ok hf hplace length twist tilt
    exact ⟨_, s', hadd⟩

end Scene

end Espalier
