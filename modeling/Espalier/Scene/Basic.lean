import Espalier.Error
import Espalier.Geometry.Transform
import Espalier.Mesh

/-!
# Scenes

A scene is a growing list of nodes. A node is numbered by its place in the list, keeps that number,
and is never removed; it knows its parent and its children. Node 0 is the root. Nodes that were
never attached stay in the scene but are not reached from the root.

The accessors here are total: a node that is not in the scene reads as an isolated default node.
Operations that must not be given such a node check it first, with `contains`.
-/

namespace Espalier

/-- Whether a node is part of the structure or a leaf that carries a mesh. -/
inductive NodeKind where
  | structural
  | geometry (mesh : Mesh)
deriving DecidableEq

/-- The state of one node. -/
structure Node (α : Type) where
  parent : Option NodeId
  /-- In the order in which they were attached. -/
  children : List NodeId
  transform : Transform α
  /-- Named positions in the frame of the node, in the order in which they were registered. -/
  points : List (String × Vec3 α)
  held : Option (Vec3 α)
  grabbed : Option (Vec3 α)
  kind : NodeKind
deriving DecidableEq

/-- A position in the frame of a node. -/
structure Point (α : Type) where
  node : NodeId
  position : Vec3 α
deriving DecidableEq

/-- A position given in the frame of the acting node, or as a point of any node. -/
inductive Anchor (α : Type) where
  | here (position : Vec3 α)
  | point (p : Point α)

/-- The nodes of a scene, in creation order. -/
structure Scene (α : Type) where
  nodes : Array (Node α)
deriving DecidableEq

variable {α : Type} [Scalar α]

namespace Node

/-- A node without parent, children and points. -/
def isolated (kind : NodeKind) (transform : Transform α) : Node α where
  parent := none
  children := []
  transform := transform
  points := []
  held := none
  grabbed := none
  kind := kind

instance : Inhabited (Node α) := ⟨isolated .structural .identity⟩

/-- Whether the node carries no mesh. -/
def isStructural (n : Node α) : Bool :=
  match n.kind with
  | .structural => true
  | .geometry _ => false

/-- The position registered under a name. -/
def point? (n : Node α) (name : String) : Option (Vec3 α) := n.points.lookup name

/-- The named positions, by name. -/
def pointsByName (n : Node α) : List (String × Vec3 α) :=
  n.points.mergeSort fun a b => a.1 ≤ b.1

end Node

namespace Point

/-- The origin of a node. -/
def origin (node : NodeId) : Point α := ⟨node, .zero⟩

end Point

namespace Scene

def root : NodeId := 0

/-- The scene of a lone root. -/
def empty : Scene α := ⟨#[.isolated .structural .identity]⟩

instance : Inhabited (Scene α) := ⟨empty⟩

def size (s : Scene α) : Nat := s.nodes.size

def contains (s : Scene α) (id : NodeId) : Bool := id < s.size

def node (s : Scene α) (id : NodeId) : Node α := s.nodes[id]?.getD default

def parent? (s : Scene α) (id : NodeId) : Option NodeId := (s.node id).parent

def children (s : Scene α) (id : NodeId) : List NodeId := (s.node id).children

def isStructural (s : Scene α) (id : NodeId) : Bool := s.contains id && (s.node id).isStructural

/-- The nodes from number `mark` on. -/
def since (s : Scene α) (mark : Nat) : List NodeId := List.range' mark (s.size - mark)

def push (s : Scene α) (n : Node α) : Scene α := ⟨s.nodes.push n⟩

def modify (s : Scene α) (id : NodeId) (f : Node α → Node α) : Scene α := ⟨s.nodes.modify id f⟩

/-! ## Relatives -/

/-- At most `steps` nodes upwards from a node, nearest first. -/
def climb (s : Scene α) : (steps : Nat) → NodeId → List NodeId
  | 0, _ => []
  | steps + 1, id =>
    match s.parent? id with
    | none => []
    | some p => p :: s.climb steps p

/-- The ancestors of a node, nearest first. A node has fewer ancestors than the scene has nodes. -/
def ancestors (s : Scene α) (id : NodeId) : List NodeId := s.climb s.size id

/-- At most `steps` nodes of the trees below the pending nodes, each before its children. -/
def preorder (s : Scene α) : (steps : Nat) → (pending : List NodeId) → List NodeId
  | 0, _ => []
  | _ + 1, [] => []
  | steps + 1, id :: pending => id :: s.preorder steps (s.children id ++ pending)

/-- The descendants of a node, each before its children and siblings in order. -/
def descendants (s : Scene α) (id : NodeId) : List NodeId := s.preorder s.size (s.children id)

/-! ## Failures -/

/-- An operation on a scene. A failed one leaves a scene too, which is the old one unless the
operation says otherwise. -/
abbrev Action (α β : Type) := EStateM Failure (Scene α) β

/-- Fails unless the scene has the node. -/
def require (s : Scene α) (id : NodeId) : Except Failure Unit :=
  if s.contains id then .ok () else .error (.fault (.noSuchNode id))

/-- The point of a node that is registered under a name. -/
def point (s : Scene α) (id : NodeId) (name : String) : Except Failure (Point α) :=
  if s.contains id then
    match (s.node id).point? name with
    | some p => .ok ⟨id, p⟩
    | none => .error (.error (.pointNotFound id name))
  else .error (.fault (.noSuchNode id))

/-- Changes a node, which the scene must have. -/
def update (id : NodeId) (f : Node α → Node α) : Action α Unit := fun s =>
  if s.contains id then .ok () (s.modify id f) else .error (.fault (.noSuchNode id)) s

/-! ## Creation -/

/-- Adds an isolated structural node with the given frame. -/
def add (t : Transform α) : Action α NodeId := fun s =>
  .ok s.size (s.push (.isolated .structural t))

/-- Registers a named position. A name is given once per node. -/
def register (id : NodeId) (name : String) (position : Vec3 α) : Action α (Point α) := fun s =>
  if s.contains id then
    match (s.node id).point? name with
    | some _ => .error (.error (.duplicatePoint id name)) s
    | none =>
      .ok ⟨id, position⟩ (s.modify id fun n => { n with points := n.points ++ [(name, position)] })
  else .error (.fault (.noSuchNode id)) s

/-- Puts a node into another frame. -/
def setFrame (id : NodeId) (t : Transform α) : Action α Unit :=
  update id fun n => { n with transform := t }

end Scene

end Espalier
