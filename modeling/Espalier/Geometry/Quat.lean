import Espalier.Geometry.Vec3

/-!
# Rotations

Quaternions as rotations. A quaternion is used as given: only `normalize` makes it a unit one, and
`rotate` is a rotation when it is.
-/

namespace Espalier

/-- A quaternion `x i + y j + z k + w`. -/
structure Quat (α : Type) where
  x : α
  y : α
  z : α
  w : α
deriving DecidableEq

namespace Quat

variable {α : Type} [Scalar α]

def identity : Quat α := ⟨0, 0, 0, 1⟩

instance : Inhabited (Quat α) := ⟨identity⟩

@[inline] def ofParts (v : Vec3 α) (w : α) : Quat α := ⟨v.x, v.y, v.z, w⟩

@[inline] def vector (q : Quat α) : Vec3 α := ⟨q.x, q.y, q.z⟩

/-- The Hamilton product: as rotations, the right factor acts first. -/
instance : Mul (Quat α) where
  mul a b :=
    { x := (a.w * b.x + a.x * b.w) + (a.y * b.z - a.z * b.y)
      y := (a.w * b.y - a.x * b.z) + (a.y * b.w + a.z * b.x)
      z := (a.w * b.z + a.x * b.y) + (a.z * b.w - a.y * b.x)
      w := (a.w * b.w - a.x * b.x) + (-(a.y * b.y) - a.z * b.z) }

@[inline] def normSq (q : Quat α) : α := (q.x * q.x + q.z * q.z) + (q.y * q.y + q.w * q.w)

def normalize (q : Quat α) : Quat α :=
  let n := Scalar.sqrt q.normSq
  ⟨q.x / n, q.y / n, q.z / n, q.w / n⟩

def rotate (q : Quat α) (v : Vec3 α) : Vec3 α :=
  let b := q.vector
  ((q.w * q.w - b.dot b) • v + (v.dot b * Scalar.two) • b) + (q.w * Scalar.two) • b.cross v

/-- The rotation about a unit vector by an angle in radians. -/
def ofAxisAngle (axis : Vec3 α) (angle : α) : Quat α :=
  let halfAngle := angle * Scalar.half
  ofParts (Scalar.sin halfAngle • axis) (Scalar.cos halfAngle)

/-- The shortest rotation that carries the unit vector `a` to the unit vector `b`. Opposite vectors
leave the axis open; it is then chosen at a right angle to `a`. -/
def ofArc (a b : Vec3 α) : Quat α :=
  let d := a.dot b
  if Scalar.lt Scalar.parallel d then identity
  else if Scalar.lt d (-Scalar.parallel) then ofAxisAngle a.anyOrthonormal Scalar.pi
  else (ofParts (a.cross b) (1 + d)).normalize

end Quat

end Espalier
