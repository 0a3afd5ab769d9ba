import Espalier.Scene.Frame

/-!
# Aiming a node

A node is turned in three steps: hold a position, which fixes the axis from the origin through it;
grab a position, which is the one to swing; point at a target. With a held position the node turns
about the axis until grabbed position and target lie on the same side of it; without one it turns by
the shortest arc. Where no direction is defined, the rotation stays as it is.
-/

namespace Espalier

variable {α : Type} [Scalar α]

namespace Quat

/-- The rotation about the axis through `held` that brings the part of `a` across the axis in line
with that of `b`. There is none if `held` has no direction or if `a` or `b` lies on the axis. -/
def aboutAxis? (held a b : Vec3 α) : Option (Quat α) := do
  let axis ← held.normalize?
  let a ← (a - a.dot axis • axis).normalize?
  let b ← (b - b.dot axis • axis).normalize?
  some (ofAxisAngle axis (Scalar.arctan2 (axis.dot (a.cross b)) (a.dot b)))

/-- The shortest rotation that brings `a` in line with `b`, if both have a direction. -/
def shortestArc? (a b : Vec3 α) : Option (Quat α) := do
  some (ofArc (← a.normalize?) (← b.normalize?))

end Quat

namespace Node

/-- The turn, in the frame of the node, that makes the grabbed position face the target. Scale is
applied before rotation, so the scaled vectors are brought in line. -/
def correction? (n : Node α) (grabbed target : Vec3 α) : Option (Quat α) :=
  let scale := n.transform.scale
  match n.held with
  | some held => Quat.aboutAxis? (scale * held) (scale * grabbed) (scale * target)
  | none => Quat.shortestArc? (scale * grabbed) (scale * target)

/-- The node with a turn applied before its rotation. -/
def turn (n : Node α) (q : Quat α) : Node α :=
  { n with transform := { n.transform with rotation := (n.transform.rotation * q).normalize } }

end Node

namespace Scene

/-- Fixes the axis of later turns: from the origin of the node through the anchor. -/
def hold (id : NodeId) (anchor : Anchor α) : Action α Unit := fun s =>
  match s.resolve id anchor with
  | .error f => .error f s
  | .ok v => update id (fun n => { n with held := some v }) s

/-- Chooses the position that later turns swing. -/
def grab (id : NodeId) (anchor : Anchor α) : Action α Unit := fun s =>
  match s.resolve id anchor with
  | .error f => .error f s
  | .ok v => update id (fun n => { n with grabbed := some v }) s

/-- Turns a node until its grabbed position faces the target. -/
def aim (id : NodeId) (target : Anchor α) : Action α Unit := fun s =>
  if s.contains id then
    match (s.node id).grabbed with
    | none => .error (.error (.grabRequired id)) s
    | some grabbed =>
      match s.resolve id target with
      | .error f => .error f s
      | .ok target =>
        match (s.node id).correction? grabbed target with
        | some q => .ok () (s.modify id fun n => n.turn q)
        | none => .ok () s
  else .error (.fault (.noSuchNode id)) s

/-- Forgets the held and the grabbed position. -/
def release (id : NodeId) : Action α Unit :=
  update id fun n => { n with held := none, grabbed := none }

end Scene

end Espalier
