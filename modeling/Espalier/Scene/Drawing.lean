import Espalier.Scene.Frame

/-!
# Drawings

What a renderer needs of a scene. The tree below the root is walked once, each node before its
children, with the matrix of a node in space made from that of its parent. Every leaf with a mesh
gives a mesh in space; on request, every node but the root gives a bone from its parent's origin to
its own.
-/

namespace Espalier

variable {α : Type} [Scalar α]

/-- A mesh placed in space. -/
structure PlacedMesh (α : Type) where
  node : NodeId
  mesh : Mesh
  world : Mat4 α
  shadeless : Bool

/-- A bone placed in space, for the segment from the parent of a node to the node. -/
structure PlacedBone (α : Type) where
  node : NodeId
  world : Mat4 α
  shadeless : Bool

/-- The meshes and bones of a scene, in walking order. -/
structure Drawing (α : Type) where
  meshes : List (PlacedMesh α)
  bones : List (PlacedBone α)
  /-- The mesh that all bones share, if bones were asked for. -/
  boneMesh : Option Mesh

/-- The placement of the bone of length one between two positions. -/
def boneMatrix (start tip : Vec3 α) : Mat4 α :=
  let segment := tip - start
  let rotation := match segment.normalize? with
    | some direction => Quat.ofArc .axisY direction
    | none => .identity
  .ofScaleRotationPosition ⟨1, segment.length, 1⟩ rotation start

namespace Scene

/-- A node on the walk: its matrix in space, and the origin of its parent there. -/
structure Visit (α : Type) where
  node : NodeId
  world : Mat4 α
  parentOrigin : Option (Vec3 α)

namespace Visit

/-- The walk on to a child. -/
def step (s : Scene α) (v : Visit α) (child : NodeId) : Visit α :=
  ⟨child, v.world * s.localMatrix child, some v.world.origin⟩

/-- The mesh to draw at a visited node. -/
def mesh? (s : Scene α) (v : Visit α) : Option (PlacedMesh α) :=
  match (s.node v.node).kind with
  | .structural => none
  | .geometry mesh => some ⟨v.node, mesh, v.world, mesh.shadeless⟩

/-- The bone to draw at a visited node. -/
def bone? (v : Visit α) : Option (PlacedBone α) :=
  v.parentOrigin.map fun start => ⟨v.node, boneMatrix start v.world.origin, true⟩

end Visit

/-- At most `steps` visits of the trees below the pending visits, each before those of the
children. -/
def walk (s : Scene α) : (steps : Nat) → (pending : List (Visit α)) → List (Visit α)
  | 0, _ => []
  | _ + 1, [] => []
  | steps + 1, v :: pending =>
    v :: s.walk steps ((s.children v.node).map (Visit.step s v) ++ pending)

/-- The visits of all nodes of the tree of the root. -/
def visits (s : Scene α) : List (Visit α) := s.walk s.size [⟨root, s.localMatrix root, none⟩]

/-- The meshes of the tree of the root and, with `bones`, its bones. -/
def drawing (s : Scene α) (bones : Bool) : Drawing α where
  meshes := s.visits.filterMap (Visit.mesh? s)
  bones := if bones then s.visits.filterMap Visit.bone? else []
  boneMesh := if bones then some .bone else none

end Scene

end Espalier
