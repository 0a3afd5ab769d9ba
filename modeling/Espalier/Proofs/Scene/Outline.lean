import Espalier.Proofs.Scene.Graft

/-!
# Outlines

The outline of a node is the node without its geometry: its links, whether it is structural, and the
names of its points, but no frame, no position and no mesh. Scenes with the same outlines are alike,
whatever the numbers in them are.

Results:
1. `Grafted.outline`: the outlines of a scene with one node more.
2. `Grafted.alike`: alike scenes stay so if nodes of the same outline are grafted on them.
3. `Alike.forest`: a scene that is alike to a forest is one.
-/

namespace Espalier

variable {α : Type}

/-- A node without its geometry. -/
structure Outline where
  parent : Option NodeId
  children : List NodeId
  structural : Bool
  /-- The names of the points, in the order in which they were registered. -/
  names : List String
deriving DecidableEq

def Node.outline (n : Node α) : Outline :=
  ⟨n.parent, n.children, n.isStructural, n.points.map (·.1)⟩

variable [Scalar α]

namespace Scene

def outline (s : Scene α) (id : NodeId) : Outline := (s.node id).outline

/-- The scenes have the same nodes, but for their geometry. -/
structure Alike (s s' : Scene α) : Prop where
  size : s.size = s'.size
  outline : ∀ id, s.outline id = s'.outline id

theorem alike_refl (s : Scene α) : Alike s s := ⟨rfl, fun _ => rfl⟩

variable {s s' t t' : Scene α} {n m : Node α}

namespace Grafted

theorem outline (h : Grafted s n s') (id : NodeId) : s'.outline id =
    if id = s.size then n.outline
    else if n.parent = some id then
      { s.outline id with children := (s.outline id).children ++ [s.size] }
    else s.outline id := by
  rw [Scene.outline, h.node]
  split
  · rfl
  · split <;> rfl

/-- Nodes of the same outline are grafted on scenes that are alike. -/
theorem alike (h : Grafted s n s') (h' : Grafted t m t') (hnm : n.outline = m.outline)
    (hs : Alike s t) : Alike s' t' where
  size := by rw [h.size, h'.size, hs.size]
  outline id := by
    have hparent : n.parent = m.parent := congrArg Outline.parent hnm
    rw [h.outline, h'.outline, hs.size, hs.outline, hnm, hparent]

end Grafted

namespace Alike

theorem contains (h : Alike s s') (id : NodeId) : s.contains id = s'.contains id := by
  rw [Scene.contains, Scene.contains, h.size]

theorem since (h : Alike s s') (mark : Nat) : s.since mark = s'.since mark := by
  rw [Scene.since, Scene.since, h.size]

theorem forest (h : Alike s s') (hf : Forest s) : Forest s' :=
  forest_congr hf (Nat.le_of_eq h.size) (fun id => congrArg Outline.parent (h.outline id).symm)
    fun id => congrArg Outline.children (h.outline id).symm

end Alike

end Scene

end Espalier
