import Espalier.Proofs.Scene.Drawing
import Espalier.Proofs.Scene.Graft

/-!
# Leaves that hang from nothing

A leaf is in the scene before its parent is looked up. At a node that is not in the scene it cannot
be hung, but it stays there, as a new node without links that no walk from another one finds. And
because the leaf is there, the number that it has got is no longer out of range: whoever hangs
something at the number behind the last node is told that the leaf cannot hang from itself.

Results:
1. `traverses_push`, `drawing_push`: a new node without links is not seen from the others.
2. `hang_stale`: what becomes of a leaf at a node that is not there.
3. `history_hang_stale`: both, in any scene that a history has made.
-/

namespace Espalier.Scene

variable {α : Type} [Scalar α] {s : Scene α}

/-! ## A node without links -/

theorem traverses_push {pending visited : List NodeId} (h : s.Traverses pending visited)
    (kind : NodeKind) (t : Transform α) :
    (s.push (.isolated kind t)).Traverses pending visited := by
  induction h with
  | done => exact .done
  | visit _ ih =>
    rw [← (links_push s kind t _).2] at ih
    exact .visit ih

theorem descendants_push (hf : Forest s) (kind : NodeKind) (t : Transform α) (id : NodeId) :
    (s.push (.isolated kind t)).descendants id = s.descendants id := by
  have h := traverses_descendants (push_forest hf kind t) id
  rw [(links_push s kind t id).2] at h
  exact traverses_unique h (traverses_push (traverses_descendants hf id) kind t)

/-- The nodes of the scene are where they were in space. -/
theorem seen_push (hf : Forest s) (kind : NodeKind) (t : Transform α) {id : NodeId}
    (hid : s.contains id) : (s.push (.isolated kind t)).seen id = s.seen id := by
  have hmatrix : ∀ id, s.contains id →
      (s.push (.isolated kind t)).worldMatrix id = s.worldMatrix id := fun id hid =>
    worldMatrix_of_rests hf (push_forest hf kind t) fun a ha =>
      (push_grafted s kind t).stays.rests a (hf.contains_above hid a ha)
  rw [seen, seen, hmatrix id hid, (links_push s kind t id).1]
  cases hparent : s.parent? id with
  | none => rfl
  | some q =>
    have hq : s.contains q := hf.contains_above hid q (by simp [hf.ancestors_of_parent hparent])
    rw [Option.map_some, Option.map_some, worldPosition, worldPosition, hmatrix q hq]

/-- A drawing visits the nodes that the scene had, and finds them as they were. -/
theorem visits_push (hf : Forest s) (kind : NodeKind) (t : Transform α) :
    (s.push (.isolated kind t)).visits = s.visits := by
  rw [visits_eq_map (push_forest hf kind t), visits_eq_map hf, descendants_push hf]
  exact List.map_congr_left fun id hid => seen_push hf kind t (contains_of_visited hf hid)

theorem drawing_push (hf : Forest s) (kind : NodeKind) (t : Transform α) (bones : Bool) :
    (s.push (.isolated kind t)).drawing bones = s.drawing bones := by
  have hmeshes : s.visits.filterMap (Visit.mesh? (s.push (.isolated kind t))) =
      s.visits.filterMap (Visit.mesh? s) := by
    refine List.filterMap_congr fun v hv => ?_
    rw [visits_eq_map hf] at hv
    obtain ⟨id, hid, rfl⟩ := List.mem_map.mp hv
    have hne : id ≠ s.size := Nat.ne_of_lt (contains_iff.mp (contains_of_visited hf hid))
    have hnode : (s.push (.isolated kind t)).node (s.seen id).node = s.node (s.seen id).node :=
      (node_push s _ id).trans (if_neg hne)
    rw [Visit.mesh?, Visit.mesh?, hnode]
  rw [drawing, drawing, visits_push hf, hmeshes]

/-! ## Leaves at nodes that are not there -/

variable {p : Point α}

/-- A leaf at a node that is not there stays unlinked. At the number that it has got itself this is
an error, and at any other it is a fault. -/
theorem hang_stale (hf : Forest s) (hp : ¬s.contains p.node) (mesh : Mesh) :
    hang p mesh s =
      .error (if p.node = s.size then .error (.selfAttachment s.size)
        else .fault (.noSuchNode p.node))
      (s.push (.isolated (.geometry mesh) (.ofPosition p.position))) := by
  have hleaf := push_grafted s (.geometry mesh) (.ofPosition p.position)
  have hroot : s.size ≠ root := Nat.ne_of_gt (contains_iff.mp hf.root_mem)
  have hfree : Node.parent (.isolated (.geometry mesh) (.ofPosition p.position)) = none := rfl
  have hfailure : (s.push (.isolated (.geometry mesh) (.ofPosition p.position))).linkFailure?
      p.node s.size = some (if p.node = s.size then .error (.selfAttachment s.size)
        else .fault (.noSuchNode p.node)) := by
    -- The leaf has come first, so its own number is in range when the parent is looked up.
    by_cases hself : p.node = s.size
    · simp [linkFailure?, hself]
    · have hmissing : ¬p.node < s.size + 1 := fun hlt =>
        (Nat.lt_succ_iff_lt_or_eq.mp hlt).elim (fun h => hp (contains_iff.mpr h)) hself
      simp [linkFailure?, hself, hroot, hleaf.parent, hfree, contains, hmissing]
  rw [hang, link, hfailure]

/-! ## Histories -/

/-- In any scene that a history has made, a leaf cannot be hung at a node that is not there: at the
number behind the last node this is an error, at any other a fault. The scene has one node more
then, the leaf without links, and is else as it was. No walk from another node and no drawing comes
to it. -/
theorem history_hang_stale (es : List (Edit α)) (p : Point α) (mesh : Mesh)
    (hp : ¬((empty : Scene α).after es).contains p.node) :
    let s := (empty : Scene α).after es
    ∃ s', hang p mesh s =
        .error (if p.node = s.size then .error (.selfAttachment s.size)
          else .fault (.noSuchNode p.node)) s' ∧
      Grafted s (.isolated (.geometry mesh) (.ofPosition p.position)) s' ∧
      (∀ id, s'.descendants id = s.descendants id) ∧
      ∀ bones, s'.drawing bones = s.drawing bones := by
  intro s
  have hf : Forest s := after_forest es
  exact ⟨_, hang_stale hf hp mesh, push_grafted s _ _, descendants_push hf _ _,
    drawing_push hf _ _⟩

/-- The number behind the last node is taken for that of the leaf. -/
theorem empty_hang_stale :
    let p : Point Float32 := ⟨1, .zero⟩
    let mesh : Mesh := ⟨[], [], [], [], false⟩
    ¬(empty : Scene Float32).contains p.node ∧
    ∃ s', hang p mesh empty = .error (.error (.selfAttachment 1)) s' ∧ s'.size = 2 ∧
      s'.node 1 = .isolated (.geometry mesh) .identity :=
  ⟨by decide, _, rfl, rfl, rfl⟩

theorem pair_hang_stale :
    let s : Scene Float32 := empty.after [.add .identity]
    ¬s.contains 7 ∧
    ∃ s', hang ⟨7, .zero⟩ ⟨[], [], [], [], false⟩ s = .error (.fault (.noSuchNode 7)) s' ∧
      s'.size = 3 ∧ s'.descendants root = [] := by
  intro s
  have h7 : ¬s.contains 7 := by decide
  obtain ⟨s', hhang, hgrafted, hdescendants, -⟩ :=
    history_hang_stale [.add .identity] ⟨7, .zero⟩ ⟨[], [], [], [], false⟩ h7
  exact ⟨h7, s', hhang, hgrafted.size, hdescendants root⟩

end Espalier.Scene
