import Espalier.Geometry.Quat

/-!
# Matrices

Four-by-four matrices by columns, for placing one frame in another. `determinant` and `inverse`
expand in two-by-two minors of the last columns.
-/

namespace Espalier

structure Vec4 (α : Type) where
  x : α
  y : α
  z : α
  w : α
deriving DecidableEq

namespace Vec4

variable {α : Type} [Scalar α]

@[inline] instance : Add (Vec4 α) := ⟨fun a b => ⟨a.x + b.x, a.y + b.y, a.z + b.z, a.w + b.w⟩⟩

@[inline] instance : Sub (Vec4 α) := ⟨fun a b => ⟨a.x - b.x, a.y - b.y, a.z - b.z, a.w - b.w⟩⟩

@[inline] instance : Mul (Vec4 α) := ⟨fun a b => ⟨a.x * b.x, a.y * b.y, a.z * b.z, a.w * b.w⟩⟩

@[inline] instance : SMul α (Vec4 α) := ⟨fun s v => ⟨v.x * s, v.y * s, v.z * s, v.w * s⟩⟩

@[inline] def dot (a b : Vec4 α) : α := (a.x * b.x + a.z * b.z) + (a.y * b.y + a.w * b.w)

@[inline] def ofVec3 (v : Vec3 α) (w : α) : Vec4 α := ⟨v.x, v.y, v.z, w⟩

@[inline] def toVec3 (v : Vec4 α) : Vec3 α := ⟨v.x, v.y, v.z⟩

end Vec4

/-- A matrix: the images of the three axes, and of the origin. -/
structure Mat4 (α : Type) where
  xAxis : Vec4 α
  yAxis : Vec4 α
  zAxis : Vec4 α
  wAxis : Vec4 α
deriving DecidableEq

namespace Mat4

variable {α : Type} [Scalar α]

def identity : Mat4 α := ⟨⟨1, 0, 0, 0⟩, ⟨0, 1, 0, 0⟩, ⟨0, 0, 1, 0⟩, ⟨0, 0, 0, 1⟩⟩

/-- The matrix that scales along the axes, then rotates, then moves. -/
def ofScaleRotationPosition (scale : Vec3 α) (rotation : Quat α) (position : Vec3 α) :
    Mat4 α :=
  let { x, y, z, w } := rotation
  let x2 := x + x
  let y2 := y + y
  let z2 := z + z
  let xx := x * x2
  let xy := x * y2
  let xz := x * z2
  let yy := y * y2
  let yz := y * z2
  let zz := z * z2
  let wx := w * x2
  let wy := w * y2
  let wz := w * z2
  { xAxis := scale.x • ⟨1 - (yy + zz), xy + wz, xz - wy, 0⟩
    yAxis := scale.y • ⟨xy - wz, 1 - (xx + zz), yz + wx, 0⟩
    zAxis := scale.z • ⟨xz + wy, yz - wx, 1 - (xx + yy), 0⟩
    wAxis := .ofVec3 position 1 }

@[inline] def mulVec (m : Mat4 α) (v : Vec4 α) : Vec4 α :=
  ((v.x • m.xAxis + v.y • m.yAxis) + v.z • m.zAxis) + v.w • m.wAxis

/-- The matrix product: as maps, the right factor acts first. -/
instance : Mul (Mat4 α) where
  mul a b := ⟨a.mulVec b.xAxis, a.mulVec b.yAxis, a.mulVec b.zAxis, a.mulVec b.wAxis⟩

def transformPoint (m : Mat4 α) (p : Vec3 α) : Vec3 α :=
  (((p.x • m.xAxis + p.y • m.yAxis) + p.z • m.zAxis) + m.wAxis).toVec3

@[inline] def origin (m : Mat4 α) : Vec3 α := m.wAxis.toVec3

/-- The sixteen entries, column by column. -/
def entries (m : Mat4 α) : List α :=
  [m.xAxis, m.yAxis, m.zAxis, m.wAxis].flatMap fun c => [c.x, c.y, c.z, c.w]

/-- The determinant, expanded along the first column. -/
def determinant (m : Mat4 α) : α :=
  let x := m.xAxis
  let y := m.yAxis
  let z := m.zAxis
  let w := m.wAxis
  let s0 := z.z * w.w - z.w * w.z
  let s1 := z.y * w.w - z.w * w.y
  let s2 := z.y * w.z - z.z * w.y
  let s3 := z.x * w.w - z.w * w.x
  let f0 := z.x * w.z - z.z * w.x
  let f1 := z.x * w.y - z.y * w.x
  x.dot
    ⟨(y.y * s0 - y.z * s1) + y.w * s2,
     -((y.x * s0 - y.z * s3) + y.w * f0),
     (y.x * s1 - y.y * s3) + y.w * f1,
     -((y.x * s2 - y.y * f0) + y.z * f1)⟩

/-- The minors of two rows, over the column pairs that the cofactors of the first lanes need. -/
def minors (m : Mat4 α) (i j : Vec4 α → α) : Vec4 α :=
  let y := m.yAxis
  let z := m.zAxis
  let w := m.wAxis
  ⟨i z * j w - i w * j z, i z * j w - i w * j z, i y * j w - i w * j y, i y * j z - i z * j y⟩

/-- A row of the matrix, over the columns that go with `minors`. -/
def lanes (m : Mat4 α) (i : Vec4 α → α) : Vec4 α :=
  ⟨i m.yAxis, i m.xAxis, i m.xAxis, i m.xAxis⟩

/-- The inverse of a matrix whose determinant is not zero. -/
def inverse (m : Mat4 α) : Mat4 α :=
  let f0 := m.minors Vec4.z Vec4.w
  let f1 := m.minors Vec4.y Vec4.w
  let f2 := m.minors Vec4.y Vec4.z
  let f3 := m.minors Vec4.x Vec4.w
  let f4 := m.minors Vec4.x Vec4.z
  let f5 := m.minors Vec4.x Vec4.y
  let v0 := m.lanes Vec4.x
  let v1 := m.lanes Vec4.y
  let v2 := m.lanes Vec4.z
  let v3 := m.lanes Vec4.w
  let even : Vec4 α := ⟨1, -1, 1, -1⟩
  let odd : Vec4 α := ⟨-1, 1, -1, 1⟩
  let i0 := even * ((v1 * f0 - v2 * f1) + v3 * f2)
  let i1 := odd * ((v0 * f0 - v2 * f3) + v3 * f4)
  let i2 := even * ((v0 * f1 - v1 * f3) + v3 * f5)
  let i3 := odd * ((v0 * f2 - v1 * f4) + v2 * f5)
  let r := 1 / m.xAxis.dot ⟨i0.x, i1.x, i2.x, i3.x⟩
  ⟨r • i0, r • i1, r • i2, r • i3⟩

end Mat4

end Espalier
