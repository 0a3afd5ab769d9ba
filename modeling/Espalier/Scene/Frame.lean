import Espalier.Scene.Basic

/-!
# Frames of a scene

Where nodes and points are in space: the frames along the way from the top of a node's tree down to
the node, multiplied in that order. `resolve` goes the other way, into the frame of a node.
-/

namespace Espalier.Scene

variable {α : Type} [Scalar α]

/-- The matrix of a node in the frame of its parent. -/
def localMatrix (s : Scene α) (id : NodeId) : Mat4 α := (s.node id).transform.toMatrix

/-- The product of the local matrices of nodes given from the innermost outwards. -/
def chainMatrix (s : Scene α) : List NodeId → Mat4 α
  | [] => .identity
  | [id] => s.localMatrix id
  | id :: outer => s.chainMatrix outer * s.localMatrix id

/-- The matrix of a node in space. -/
def worldMatrix (s : Scene α) (id : NodeId) : Mat4 α := s.chainMatrix (id :: s.ancestors id)

/-- The origin of a node in space. -/
def worldPosition (s : Scene α) (id : NodeId) : Vec3 α := (s.worldMatrix id).origin

/-- A point in space. -/
def worldPoint (s : Scene α) (p : Point α) : Vec3 α :=
  (s.worldMatrix p.node).transformPoint p.position

/-- Whether a matrix can be inverted, as far as its determinant tells. -/
def isInvertible (m : Mat4 α) : Bool :=
  Scalar.isFinite m.determinant && !Scalar.lt (Scalar.abs m.determinant) Scalar.tiny

/-- An anchor in the frame of a node. A point of the node itself keeps its coordinates, whatever the
frame of the node is. -/
def resolve (s : Scene α) (id : NodeId) : Anchor α → Except Failure (Vec3 α)
  | .here v => .ok v
  | .point p =>
    if p.node = id then .ok p.position
    else if !s.contains p.node then .error (.fault (.noSuchNode p.node))
    else if !s.contains id then .error (.fault (.noSuchNode id))
    else
      let frame := s.worldMatrix id
      if isInvertible frame then .ok (frame.inverse.transformPoint (s.worldPoint p))
      else .error (.error (.singularTransform id))

end Espalier.Scene
