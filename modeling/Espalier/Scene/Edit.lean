import Espalier.Scene.Aim
import Espalier.Scene.Link

/-!
# Edits

The operations that change a scene, as data: a closed set, so that a history of a scene is a list of
edits and a law of scenes is a law of each of them.
-/

namespace Espalier

variable {α : Type} [Scalar α]

/-- An operation that changes a scene. -/
inductive Edit (α : Type) where
  | add (t : Transform α)
  | register (node : NodeId) (name : String) (position : Vec3 α)
  | setFrame (node : NodeId) (t : Transform α)
  | link (parent child : NodeId)
  | join (this target : Point α)
  | hang (p : Point α) (mesh : Mesh)
  | hold (node : NodeId) (anchor : Anchor α)
  | grab (node : NodeId) (anchor : Anchor α)
  | aim (node : NodeId) (target : Anchor α)
  | release (node : NodeId)

namespace Edit

/-- What an edit answers when it succeeds. -/
def Answer : Edit α → Type
  | .add _ | .hang .. => NodeId
  | .register .. => Point α
  | .setFrame .. | .link .. | .join .. | .hold .. | .grab .. | .aim .. | .release _ => Unit

/-- Performs an edit. -/
def run : (e : Edit α) → Scene.Action α e.Answer
  | .add t => Scene.add t
  | .register node name position => Scene.register node name position
  | .setFrame node t => Scene.setFrame node t
  | .link parent child => Scene.link parent child
  | .join this target => Scene.join this target
  | .hang p mesh => Scene.hang p mesh
  | .hold node anchor => Scene.hold node anchor
  | .grab node anchor => Scene.grab node anchor
  | .aim node target => Scene.aim node target
  | .release node => Scene.release node

end Edit

end Espalier
