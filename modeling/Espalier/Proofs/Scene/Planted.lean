import Espalier.Proofs.Scene.Drawing
import Espalier.Proofs.Scene.Rest
import Mathlib.Data.List.Perm.Basic

/-!
# Scenes that hang from their root

In a planted scene every node but the root hangs from an earlier one, so all of them are below the
root and none is left out of a drawing.

Results:
1. `Planted.root_above`: the root is an ancestor of every other node.
2. `Planted.fullyDrawn`: a drawing leaves out no node of a planted scene.
-/

namespace Espalier.Scene

variable {α : Type} [Scalar α]

/-- Every node but the root hangs from one that was there before. -/
structure Planted (s : Scene α) : Prop where
  forest : Forest s
  parent : ∀ id, s.contains id → id ≠ root → ∃ p, p < id ∧ s.parent? id = some p

theorem empty_planted : Planted (empty : Scene α) where
  forest := empty_forest
  parent _ hid hne := absurd (Nat.lt_one_iff.mp (contains_iff.mp hid)) hne

variable {s s' : Scene α}

theorem Planted.root_above (h : Planted s) {id : NodeId} (hid : s.contains id)
    (hne : id ≠ root) : root ∈ s.ancestors id := by
  induction id using Nat.strongRecOn with
  | ind id ih =>
    obtain ⟨p, hlt, hp⟩ := h.parent id hid hne
    rw [h.forest.ancestors_of_parent hp]
    by_cases hroot : p = root
    · rw [hroot]
      exact List.mem_cons_self
    · exact List.mem_cons_of_mem _ (ih p hlt (h.forest.parent_mem id p hp) hroot)

/-- A child is younger than its parent. -/
theorem Planted.lt_of_mem_children (h : Planted s) {id c : NodeId} (hc : c ∈ s.children id) :
    id < c := by
  have hp : s.parent? c = some id := h.forest.mem_children.mp hc
  have hne : c ≠ root := fun heq => by rw [heq, h.forest.root_top] at hp; cases hp
  obtain ⟨p, hlt, hp'⟩ := h.parent c (contains_of_parent hp) hne
  rw [hp] at hp'
  cases hp'
  exact hlt

/-! ## Drawings of planted scenes -/

theorem Planted.descendants_perm (h : Planted s) :
    (root :: s.descendants root).Perm (List.range s.size) := by
  refine (List.perm_ext_iff_of_nodup (descendants_nodup h.forest root) List.nodup_range).mpr
    fun id => ?_
  rw [List.mem_range, ← contains_iff, List.mem_cons, mem_descendants h.forest]
  constructor
  · rintro (rfl | hid)
    · exact h.forest.root_mem
    · exact contains_of_mem_ancestors hid
  · intro hid
    by_cases hne : id = root
    · exact .inl hne
    · exact .inr (h.root_above hid hne)

/-- The drawing of a scene with its bones leaves out no node: there is one bone for each node but
the root, and one mesh for each node that is not structural. -/
structure FullyDrawn (s : Scene α) : Prop where
  bones : (s.drawing true).bones.length = s.size - 1
  bone_nodes : ((s.drawing true).bones.map (·.node)).Perm (List.range' 1 (s.size - 1))
  mesh_nodes : ((s.drawing true).meshes.map (·.node)).Perm
    ((List.range s.size).filter fun id => !(s.node id).isStructural)

theorem Planted.fullyDrawn (h : Planted s) : FullyDrawn s := by
  have hsize : s.size = s.size - 1 + 1 :=
    (Nat.sub_add_cancel (Nat.one_le_of_lt (contains_iff.mp h.forest.root_mem))).symm
  have hbelow : (s.descendants root).Perm (List.range' 1 (s.size - 1)) := by
    have hperm := h.descendants_perm
    rw [hsize, List.range_eq_range', List.range'_succ] at hperm
    exact hperm.cons_inv
  have hbones : (s.drawing true).bones.map (·.node) = s.descendants root := by
    show (s.visits.filterMap Visit.bone?).map (·.node) = _
    rw [filterMap_bone?_visits h.forest, filterMap_bone?_node]
    exact fun id hid => exists_parent_of_mem_descendants h.forest hid
  refine ⟨?_, hbones ▸ hbelow, ?_⟩
  · rw [← List.length_map (·.node), hbones, hbelow.length_eq, List.length_range']
  · show ((s.visits.filterMap (Visit.mesh? s)).map (·.node)).Perm _
    rw [visits_eq_map h.forest, filterMap_mesh?_node]
    exact h.descendants_perm.filter _

end Espalier.Scene
