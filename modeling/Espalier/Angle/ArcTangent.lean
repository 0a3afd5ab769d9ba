import Espalier.Angle.Sine

/-!
# The angle of a point

`arcTangent2 y x` is the angle of the point `(x, y)` in single precision. The arc tangent of a
non-negative number is a polynomial near zero; further out the argument is first moved next to zero
by the subtraction law, from the nearest of four base points whose arc tangents are kept as a high
and a low part.
-/

namespace Espalier.Angle

/-- The odd polynomial `x - arctan x` near zero. -/
def arcTangentRest (x : Float32) : Float32 :=
  let z := x * x
  let w := z * z
  let odd := z * (Float32.ofBits 0x3eaaaaab + w * (Float32.ofBits 0x3e124925 +
    w * (Float32.ofBits 0x3dba2e6e + w * (Float32.ofBits 0x3d886b35 +
    w * (Float32.ofBits 0x3d4bda59 + w * Float32.ofBits 0x3c8569d7)))))
  let even := w * (Float32.ofBits 0xbe4ccccd + w * (Float32.ofBits 0xbde38e38 +
    w * (Float32.ofBits 0xbd9d8795 + w * (Float32.ofBits 0xbd6ef16b +
    w * Float32.ofBits 0xbd15a221))))
  x * (odd + even)

/-- The angle `high + low` of a base point, moved by the arc tangent of `x`. -/
def movedBy (high low : UInt32) (x : Float32) : Float32 :=
  Float32.ofBits high - ((arcTangentRest x - Float32.ofBits low) - x)

/-- The arc tangent of a number that is not negative. -/
def arcTangent (x : Float32) : Float32 :=
  let bits := x.toBits
  if 0x7f800000 < bits then x
  else if 0x4c000000 ≤ bits then Float32.ofBits 0x3fc90fda + Float32.ofBits 0x33a22168
  else if bits < 0x31000000 then x
  else if bits < 0x3ee00000 then x - arcTangentRest x
  else if bits < 0x3f300000 then movedBy 0x3eed6338 0x31ac3769 ((2 * x - 1) / (2 + x))
  else if bits < 0x3f980000 then movedBy 0x3f490fda 0x33222168 ((x - 1) / (x + 1))
  else if bits < 0x401c0000 then movedBy 0x3f7b985e 0x33140fb4 ((x - 1.5) / (1 + 1.5 * x))
  else movedBy 0x3fc90fda 0x33a22168 (-1 / x)

/-- The single nearest to `π`. -/
def halfTurn : Float32 := Float32.ofBits 0x40490fdb

/-- What `halfTurn` has too much, negated. -/
def halfTurnLow : Float32 := Float32.ofBits 0xb3bbbd2e

/-- The angle of `(x, y)` up to its sign, where neither number is a NaN. -/
def arcTangent2Magnitude (y x : Float32) : Float32 :=
  let xBits := magnitude x
  let yBits := magnitude y
  let left := x.toBits >>> 31 = 1
  if x.toBits = 0x3f800000 then arcTangent (Float32.ofBits yBits)
  else if yBits = 0 then if left then halfTurn else 0
  else if xBits = 0 then Float32.ofBits 0x3fc90fdb
  else if xBits = 0x7f800000 then
    if yBits = 0x7f800000 then
      if left then Float32.ofBits 0x4016cbe4 else Float32.ofBits 0x3f490fdb
    else if left then halfTurn else 0
  else if yBits = 0x7f800000 then Float32.ofBits 0x3fc90fdb
  else
    -- The binary exponent of the quotient, up to one.
    let exponent := ((yBits.toNat : Int) - xBits.toNat) / 0x800000
    let z :=
      if 60 < exponent then Float32.ofBits 0x3fc90fdb + 0.5 * halfTurnLow
      else if left ∧ exponent < -60 then 0
      else arcTangent (Float32.ofBits (magnitude (y / x)))
    if left then halfTurn - (z - halfTurnLow) else z

/-- The angle of the point `(x, y)`, in `[-π, π]`, with the sign of `y`. -/
def arcTangent2 (y x : Float32) : Float32 :=
  if y.isNaN || x.isNaN then x + y
  else Float32.ofBits ((arcTangent2Magnitude y x).toBits ^^^ (y.toBits &&& 0x80000000))

end Espalier.Angle
