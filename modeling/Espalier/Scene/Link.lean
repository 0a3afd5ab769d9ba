import Espalier.Scene.Basic

/-!
# Linking nodes

All links between nodes are made by `link`, which keeps the scene a forest with the root at the
top of one tree: a node is attached once, the root never, and no node below itself. `join` and
`hang` place a node and link it.
-/

namespace Espalier.Scene

variable {α : Type} [Scalar α]

/-- Why `child` cannot be attached to `parent`, if it cannot. -/
def linkFailure? (s : Scene α) (parent child : NodeId) : Option Failure :=
  if parent = child then some (.error (.selfAttachment child))
  else if child = root then some (.error (.alreadyAttached child))
  else if !s.contains child then some (.fault (.noSuchNode child))
  else if (s.parent? child).isSome then some (.error (.alreadyAttached child))
  else if !s.contains parent then some (.fault (.noSuchNode parent))
  else if child ∈ s.ancestors parent then some (.error (.cycle parent child))
  else none

/-- The scene with `child` as the last child of `parent`. -/
def linked (s : Scene α) (parent child : NodeId) : Scene α :=
  (s.modify child fun n => { n with parent := some parent }).modify parent fun n =>
    { n with children := n.children ++ [child] }

/-- Attaches a node to a parent. -/
def link (parent child : NodeId) : Action α Unit := fun s =>
  match s.linkFailure? parent child with
  | some f => .error f s
  | none => .ok () (s.linked parent child)

/-- Attaches the node of `this` to the node of `target` and moves it so that the points coincide.
Its rotation and scale stay. -/
def join (this target : Point α) : Action α Unit := fun s =>
  if this.node = target.node then .error (.error (.selfAttachment this.node)) s
  else
    match link target.node this.node s with
    | .error f s => .error f s
    | .ok () s =>
      .ok () (s.modify this.node fun n =>
        let t := n.transform
        let position := t.stuckPosition this.position target.position
        { n with transform := { t with position } })

/-- Hangs a new leaf with a mesh at a point. The leaf is in the scene before its parent is looked
up; if that fails, it stays there unattached. -/
def hang (p : Point α) (mesh : Mesh) : Action α NodeId := fun s =>
  let leaf := s.size
  match link p.node leaf (s.push (.isolated (.geometry mesh) (.ofPosition p.position))) with
  | .error f s => .error f s
  | .ok () s => .ok leaf s

end Espalier.Scene
