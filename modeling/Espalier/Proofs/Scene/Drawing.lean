import Espalier.Proofs.Scene.Traversal
import Espalier.Scene.Drawing

/-!
# A drawing places every node where its ancestors put it

The walk that draws a scene carries a matrix with each pending node, made from that of the parent.
The matrix of a node in space is the product along its ancestors. `seen` is what the walk would
know of a node by the second account, and the walk knows nothing else: the two products are taken
in the same order, so nothing about matrices is used.

Results:
1. `visits_eq_map`: the walk visits the root and then its descendants, each as `seen`.
2. `drawing_places_nodes`: the meshes and bones of a drawing, for every history of edits.
-/

namespace Espalier.Scene

variable {α : Type} [Scalar α]

/-- The visit of a node as its ancestors have it. -/
def seen (s : Scene α) (id : NodeId) : Visit α :=
  ⟨id, s.worldMatrix id, (s.parent? id).map s.worldPosition⟩

theorem step_seen {s : Scene α} (hf : Forest s) {id c : NodeId} (hc : c ∈ s.children id) :
    Visit.step s (s.seen id) c = s.seen c := by
  have hp : s.parent? c = some id := hf.mem_children.mp hc
  simp only [Visit.step, seen, hp, worldMatrix_of_parent hf hp]
  rfl

/-- Every pending visit is as `seen`, so every visit is. -/
theorem walk_seen {s : Scene α} (hf : Forest s) (steps : Nat) (pending : List NodeId) :
    s.walk steps (pending.map s.seen) = (s.preorder steps pending).map s.seen := by
  induction steps generalizing pending with
  | zero => cases pending <;> rfl
  | succ steps ih =>
    cases pending with
    | nil => rfl
    | cons id pending =>
      have hchildren :
          (s.children id).map (Visit.step s (s.seen id)) = (s.children id).map s.seen :=
        List.map_congr_left fun c hc => step_seen hf hc
      rw [List.map_cons, walk, preorder, List.map_cons]
      show s.seen id :: s.walk steps ((s.children id).map (Visit.step s (s.seen id)) ++
        pending.map s.seen) = _
      rw [hchildren, ← List.map_append, ih]

theorem traverses_root {s : Scene α} (hf : Forest s) :
    s.Traverses [root] (root :: s.descendants root) :=
  .visit (by rw [List.append_nil]; exact traverses_descendants hf root)

theorem contains_of_visited {s : Scene α} (hf : Forest s) {id : NodeId}
    (h : id ∈ root :: s.descendants root) : s.contains id := by
  rcases List.mem_cons.mp h with rfl | h
  · exact hf.root_mem
  · exact contains_of_mem_ancestors ((mem_descendants hf).mp h)

/-- The walk from the root ends before its steps are used up. -/
theorem preorder_root {s : Scene α} (hf : Forest s) :
    s.preorder s.size [root] = root :: s.descendants root :=
  preorder_of_traverses (traverses_root hf)
    (length_le_size (descendants_nodup hf root) fun _ => contains_of_visited hf)

theorem visits_eq_map {s : Scene α} (hf : Forest s) :
    s.visits = (root :: s.descendants root).map s.seen := by
  have hroot : s.seen root = ⟨root, s.localMatrix root, none⟩ := by
    rw [seen, worldMatrix_of_top hf hf.root_top, hf.root_top]
    rfl
  rw [visits, ← hroot, ← preorder_root hf, ← walk_seen hf]
  rfl

/-! ## Meshes and bones -/

theorem mesh?_seen (s : Scene α) (id : NodeId) :
    (Visit.mesh? s (s.seen id)).map (·.node) =
      if (s.node id).isStructural then none else some id := by
  unfold Visit.mesh? Node.isStructural
  split <;> simp_all [seen]

/-- The nodes of the meshes are the visited leaves, in visiting order. -/
theorem filterMap_mesh?_node (s : Scene α) (ids : List NodeId) :
    ((ids.map s.seen).filterMap (Visit.mesh? s)).map (·.node) =
      ids.filter fun id => !(s.node id).isStructural := by
  induction ids with
  | nil => rfl
  | cons id ids ih =>
    have hid := mesh?_seen s id
    rw [List.map_cons, List.filter_cons]
    cases hmesh : Visit.mesh? s (s.seen id) with
    | none =>
      rw [List.filterMap_cons_none hmesh, ih]
      rw [hmesh] at hid
      simp_all
    | some m =>
      rw [List.filterMap_cons_some hmesh, List.map_cons, ih]
      rw [hmesh] at hid
      simp_all

/-- Every node with a parent gives a bone. -/
theorem filterMap_bone?_node (s : Scene α) {ids : List NodeId}
    (h : ∀ id ∈ ids, ∃ p, s.parent? id = some p) :
    ((ids.map s.seen).filterMap Visit.bone?).map (·.node) = ids := by
  induction ids with
  | nil => rfl
  | cons id ids ih =>
    obtain ⟨p, hp⟩ := h id List.mem_cons_self
    have hbone : Visit.bone? (s.seen id) =
        some ⟨id, boneMatrix (s.worldPosition p) (s.worldPosition id), true⟩ := by
      simp only [Visit.bone?, seen, hp]
      rfl
    rw [List.map_cons, List.filterMap_cons_some hbone, List.map_cons,
      ih fun id hid => h id (List.mem_cons_of_mem _ hid)]

theorem mesh?_seen_eq_some {s : Scene α} {id : NodeId} {m : PlacedMesh α}
    (h : Visit.mesh? s (s.seen id) = some m) :
    (s.node m.node).kind = .geometry m.mesh ∧ m.world = s.worldMatrix m.node ∧
      m.shadeless = m.mesh.shadeless := by
  unfold Visit.mesh? at h
  split at h
  · cases h
  next mesh hkind =>
    cases h
    exact ⟨hkind, rfl, rfl⟩

theorem bone?_seen_eq_some {s : Scene α} {id : NodeId} {b : PlacedBone α}
    (h : Visit.bone? (s.seen id) = some b) :
    ∃ p, s.parent? b.node = some p ∧
      b.world = boneMatrix (s.worldPosition p) (s.worldPosition b.node) := by
  simp only [Visit.bone?, seen, Option.map_map, Option.map_eq_some_iff] at h
  obtain ⟨p, hp, rfl⟩ := h
  exact ⟨p, hp, rfl⟩

/-- The root has no bone, so the bones are those of its descendants. -/
theorem filterMap_bone?_visits {s : Scene α} (hf : Forest s) :
    s.visits.filterMap Visit.bone? =
      ((s.descendants root).map s.seen).filterMap Visit.bone? := by
  have hroot : Visit.bone? (s.seen root) = none := by simp [Visit.bone?, seen, hf.root_top]
  rw [visits_eq_map hf, List.map_cons, List.filterMap_cons_none hroot]

theorem exists_seen_of_mem_filterMap {β : Type} {s : Scene α} (hf : Forest s)
    {f : Visit α → Option β} {b : β} (h : b ∈ s.visits.filterMap f) :
    ∃ id, f (s.seen id) = some b := by
  rw [visits_eq_map hf, List.filterMap_map, List.mem_filterMap] at h
  obtain ⟨id, -, h⟩ := h
  exact ⟨id, h⟩

/-- The drawing of a scene after any history of edits. The walk visits the root and then its
descendants, none of them twice, and ends with nothing pending. Of these the leaves give one mesh
each, placed by the matrix of the leaf in space; with bones, all but the root give one bone each,
from the parent's position in space to their own. Both come in visiting order. -/
theorem drawing_places_nodes (es : List (Edit α)) (bones : Bool) :
    let s := (empty : Scene α).after es
    let d := s.drawing bones
    s.visits.map (·.node) = root :: s.descendants root ∧
    s.Traverses [root] (root :: s.descendants root) ∧
    (root :: s.descendants root).Nodup ∧
    d.meshes.map (·.node) =
      (root :: s.descendants root).filter (fun id => !(s.node id).isStructural) ∧
    (∀ m ∈ d.meshes, (s.node m.node).kind = .geometry m.mesh ∧ m.world = s.worldMatrix m.node ∧
      m.shadeless = m.mesh.shadeless) ∧
    d.bones.map (·.node) = (if bones then s.descendants root else []) ∧
    ∀ b ∈ d.bones, ∃ p, s.parent? b.node = some p ∧
      b.world = boneMatrix (s.worldPosition p) (s.worldPosition b.node) := by
  intro s d
  have hf : Forest s := after_forest es
  refine ⟨?_, traverses_root hf, descendants_nodup hf root, ?_, ?_, ?_, ?_⟩
  · rw [visits_eq_map hf, List.map_map]
    exact List.map_id _
  · show (s.visits.filterMap (Visit.mesh? s)).map (·.node) = _
    rw [visits_eq_map hf, filterMap_mesh?_node]
  · intro m hm
    obtain ⟨id, h⟩ := exists_seen_of_mem_filterMap hf hm
    exact mesh?_seen_eq_some h
  · cases bones with
    | false => rfl
    | true =>
      show (s.visits.filterMap Visit.bone?).map (·.node) = s.descendants root
      rw [filterMap_bone?_visits hf, filterMap_bone?_node]
      exact fun id hid => exists_parent_of_mem_descendants hf hid
  · intro b hb
    cases bones with
    | false => cases hb
    | true =>
      obtain ⟨id, h⟩ := exists_seen_of_mem_filterMap hf hb
      exact bone?_seen_eq_some h

end Espalier.Scene
