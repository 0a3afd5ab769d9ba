/-!
# Scalars

The arithmetic that the geometry is written over. Vectors, rotations, matrices, curves and scenes
are generic in a scalar type: they run over single-precision floats, and can be read over any other
type with these operations, such as the real numbers.

Comparisons answer `Bool`, because the executable scalars are not ordered: a comparison that
involves a NaN is false.
-/

namespace Espalier

/-- The operations and constants that the geometry needs of a number. -/
class Scalar (α : Type) extends Add α, Sub α, Mul α, Div α, Neg α, Zero α, One α where
  /-- The scalar nearest to a count. -/
  ofNat : Nat → α
  half : α
  pi : α
  /-- The square root of a number that is not negative. -/
  sqrt : α → α
  abs : α → α
  sin : α → α
  cos : α → α
  /-- `arctan2 y x` is the angle of the point `(x, y)`, in `[-π, π]`. -/
  arctan2 : α → α → α
  lt : α → α → Bool
  isFinite : α → Bool
  /-- One, with the sign of the argument (the sign of a zero counts). -/
  oneSigned : α → α
  /-- Unit vectors whose dot product exceeds this are taken for parallel. -/
  parallel : α
  /-- A matrix with a smaller determinant is taken for singular. -/
  tiny : α

namespace Scalar

variable {α : Type} [Scalar α]

@[inline] def two : α := 1 + 1

@[inline] def three : α := two + 1

@[inline] def six : α := three * two

/-- The scalar moved into `[0, 1]`; what compares with neither end stays as it is. -/
@[inline] def clampUnit (x : α) : α :=
  if lt x 0 then 0 else if lt 1 x then 1 else x

end Scalar

end Espalier
