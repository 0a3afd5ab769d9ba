import Espalier.Geometry.Mat4

/-!
# Local frames

The placement of a node in the frame of its parent: a point is scaled along the axes, then rotated,
then moved.
-/

namespace Espalier

/-- Position, rotation and scale of a frame. -/
structure Transform (α : Type) where
  position : Vec3 α
  rotation : Quat α
  scale : Vec3 α
deriving DecidableEq

namespace Transform

variable {α : Type} [Scalar α]

def identity : Transform α := ⟨.zero, .identity, .splat 1⟩

instance : Inhabited (Transform α) := ⟨identity⟩

def ofPosition (position : Vec3 α) : Transform α := { identity with position }

/-- The matrix that maps local positions into the frame of the parent. -/
def toMatrix (t : Transform α) : Mat4 α :=
  .ofScaleRotationPosition t.scale t.rotation t.position

def apply (t : Transform α) (p : Vec3 α) : Vec3 α :=
  t.position + t.rotation.rotate (t.scale * p)

/-- Where the frame has to be for its local position `this` to fall on `target` of the parent, with
its rotation and scale as they are. -/
def stuckPosition (t : Transform α) (this target : Vec3 α) : Vec3 α :=
  target - t.rotation.rotate (t.scale * this)

end Transform

end Espalier
