import Espalier.Precision

/-!
# Sine and cosine of single-precision angles

An angle is reduced to a quadrant and a rest of at most an eighth of a turn, and the rest goes
through a short polynomial in double precision; only the result is rounded to single precision.

* Below a quarter of `π` nothing is reduced.
* Below 120 the quadrant is one product with `2/π`, rounded to the nearest integer.
* Above, the angle's significand is multiplied with the bits of `2/π` that matter at its exponent,
  so that no precision is lost to the multiples of the full turn.
-/

namespace Espalier.Angle

/-! ## Constants -/

/-- The first 192 bits of `2/π`. -/
def twoOverPi : Nat := 0xa2f9836e4e441529fc2757d1f534ddc0db6295993c439041

def quarterTurn : Float := Float.ofBits 0x3ff921fb54442d18

/-- `2/π`, scaled by `2^24`. -/
def quadrantScale : Float := Float.ofBits 0x41645f306dc9c883

/-- `π/2`, scaled by `2^-62`. -/
def quarterTurnScaled : Float := Float.ofBits 0x3c1921fb54442d18

/-! ## Polynomials on `[-π/4, π/4]` -/

/-- The sine of `x`, where `xx` is the square of `x`. -/
def sinePolynomial (x xx : Float) : Float :=
  let x3 := x * xx
  let high := Float.ofBits 0x3f81107605230bc4 + xx * Float.ofBits 0xbf2994eb3774cf24
  let x7 := x3 * xx
  let low := x + x3 * Float.ofBits 0xbfc555545995a603
  low + x7 * high

def cosinePolynomial (xx : Float) : Float :=
  let x4 := xx * xx
  let high := Float.ofBits 0xbf56c087e89a359d + xx * Float.ofBits 0x3ef99343027bf8c3
  let low := 1 + xx * Float.ofBits 0xbfdffffffd0c621c
  let x6 := x4 * xx
  let middle := low + x4 * Float.ofBits 0x3fa55553e1068f19
  middle + x6 * high

/-! ## Reduction -/

/-- Thirty-two bits of `2/π`, ending `8 * (i + 1)` bits behind the binary point. -/
def windowAt (i : Nat) : UInt64 :=
  ((twoOverPi >>> (184 - 8 * i)) &&& 0xffffffff).toUInt64

/-- Quadrant (modulo four) and rest of a finite angle of any size, given by the bits of its absolute
value. The product is kept modulo four quadrants, in steps of `2^-62`. -/
def reduceLarge (bits : UInt32) : UInt64 × Float :=
  let i := ((bits >>> 26) &&& 15).toNat
  let significand := (((bits &&& 0xffffff) ||| 0x800000) <<< ((bits >>> 23) &&& 7)).toUInt64
  let top := (significand * windowAt i) &&& 0xffffffff
  let middle := significand * windowAt (i + 4)
  let bottom := significand * windowAt (i + 8)
  let turns := ((bottom >>> 32) ||| (top <<< 32)) + middle
  let quadrant := (turns + 0x2000000000000000) >>> 62
  let rest := turns - (quadrant <<< 62)
  let signed := if rest < 0x8000000000000000 then rest.toFloat else -(0 - rest).toFloat
  (quadrant, signed * quarterTurnScaled)

/-- Quadrant (modulo four) and rest of a finite angle, given by the bits of its absolute value. -/
def reduce (bits : UInt32) : UInt64 × Float :=
  let x := widen (Float32.ofBits bits)
  if bits >>> 20 < 0x3f4 then (0, x)
  else if bits >>> 20 < 0x42f then
    let quadrant := ((x * quadrantScale).toUInt64 + 0x800000) >>> 24
    (quadrant, x - quadrant.toFloat * quarterTurn)
  else reduceLarge bits

def magnitude (x : Float32) : UInt32 := x.toBits &&& 0x7fffffff

/-- The sine of a rest `x`, moved on by a number of quarter turns. -/
def quadrantValue (quadrant : UInt64) (x : Float) : Float :=
  let xx := x * x
  let v := if quadrant &&& 1 = 0 then sinePolynomial x xx else cosinePolynomial xx
  if quadrant &&& 2 = 0 then v else -v

/-- The sine of an angle in radians; a NaN for an infinite one. -/
def sine (x : Float32) : Float32 :=
  let bits := magnitude x
  if bits >>> 20 < 0x398 then x
  else if 0x7f800000 ≤ bits then 0 / 0
  else
    let (quadrant, rest) := reduce bits
    let v := quadrantValue quadrant rest
    narrow (if x.toBits >>> 31 = 1 then -v else v)

/-- The cosine of an angle in radians; a NaN for an infinite one. -/
def cosine (x : Float32) : Float32 :=
  let bits := magnitude x
  if bits >>> 20 < 0x398 then 1
  else if 0x7f800000 ≤ bits then 0 / 0
  else
    let (quadrant, rest) := reduce bits
    narrow (quadrantValue (quadrant + 1) rest)

end Espalier.Angle
