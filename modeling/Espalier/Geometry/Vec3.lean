import Espalier.Scalar.Basic

/-!
# Vectors

Vectors of three scalars. Every operation fixes the order in which its terms are combined, because
that order shows in the last bit of a float.
-/

namespace Espalier

/-- A vector, or a position, in space. -/
structure Vec3 (α : Type) where
  x : α
  y : α
  z : α
deriving DecidableEq

namespace Vec3

variable {α : Type} [Scalar α]

@[inline] def splat (s : α) : Vec3 α := ⟨s, s, s⟩

def zero : Vec3 α := splat 0

def axisX : Vec3 α := ⟨1, 0, 0⟩

/-- The unit vector of the second axis, the long axis of every segment. -/
def axisY : Vec3 α := ⟨0, 1, 0⟩

instance : Inhabited (Vec3 α) := ⟨zero⟩

@[inline] instance : Add (Vec3 α) := ⟨fun a b => ⟨a.x + b.x, a.y + b.y, a.z + b.z⟩⟩

@[inline] instance : Sub (Vec3 α) := ⟨fun a b => ⟨a.x - b.x, a.y - b.y, a.z - b.z⟩⟩

@[inline] instance : Mul (Vec3 α) := ⟨fun a b => ⟨a.x * b.x, a.y * b.y, a.z * b.z⟩⟩

@[inline] instance : SMul α (Vec3 α) := ⟨fun s v => ⟨v.x * s, v.y * s, v.z * s⟩⟩

@[inline] def dot (a b : Vec3 α) : α := (a.x * b.x + a.y * b.y) + a.z * b.z

@[inline] def cross (a b : Vec3 α) : Vec3 α :=
  ⟨a.y * b.z - b.y * a.z, a.z * b.x - b.z * a.x, a.x * b.y - b.x * a.y⟩

@[inline] def length (v : Vec3 α) : α := Scalar.sqrt (v.dot v)

@[inline] def distance (a b : Vec3 α) : α := (a - b).length

/-- The point at `s` between `a` (at 0) and `b` (at 1). -/
@[inline] def lerp (a b : Vec3 α) (s : α) : Vec3 α := (1 - s) • a + s • b

/-- The unit vector of the same direction. A vector too short or too long for the reciprocal of its
length, or with a NaN, has none. -/
def normalize? (v : Vec3 α) : Option (Vec3 α) :=
  let r := 1 / v.length
  if Scalar.isFinite r && Scalar.lt 0 r then some (r • v) else none

/-- The unit vector of the same direction, or zero. -/
def normalizeOrZero (v : Vec3 α) : Vec3 α := v.normalize?.getD zero

/-- A unit vector at a right angle to a unit vector. -/
def anyOrthonormal (v : Vec3 α) : Vec3 α :=
  let sign : α := Scalar.oneSigned v.z
  let a := -1 / (sign + v.z)
  let b := v.x * v.y * a
  ⟨b, sign + v.y * v.y * a, -v.y⟩

end Vec3

end Espalier
