import Espalier.Angle.ArcTangent
import Espalier.Scalar.Basic

/-!
# Single-precision scalars

The scalar operations of the executable geometry. Each is one rounded operation, never fused with
another, so results agree bit for bit from machine to machine.
-/

namespace Espalier

/-- The single nearest to a count below `2^64`. -/
def singleOfNat (n : Nat) : Float32 := n.toUInt64.toFloat32

instance : Scalar Float32 where
  zero := 0
  one := 1
  ofNat := singleOfNat
  half := 0.5
  pi := Angle.halfTurn
  sqrt := Float32.sqrt
  abs := Float32.abs
  sin := Angle.sine
  cos := Angle.cosine
  arctan2 := Angle.arcTangent2
  lt a b := a.lt b
  isFinite := Float32.isFinite
  oneSigned x := Float32.ofBits ((x.toBits &&& 0x80000000) ||| 0x3f800000)
  -- `1 - 2 * 2^-23`
  parallel := Float32.ofBits 0x3f7ffffc
  -- The least normal single, `2^-126`.
  tiny := Float32.ofBits 0x00800000

end Espalier
