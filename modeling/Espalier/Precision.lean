/-!
# Single and double precision

Conversions between the two binary float formats, written on their bit patterns. `widen` is exact;
`narrow` rounds to the nearest single, a tie going to the even significand, and what lies beyond the
largest single becomes an infinity.
-/

namespace Espalier

/-- `m / 2^drop` rounded to the nearest natural number, a tie going to the even one. -/
def roundShift (m drop : Nat) : Nat :=
  let q := m >>> drop
  let rest := m % (1 <<< drop)
  let half := 1 <<< (drop - 1)
  if half < rest ∨ (rest = half ∧ q % 2 = 1) then q + 1 else q

/-- The double with the value of a single. -/
def widen (x : Float32) : Float :=
  let bits := x.toBits
  let sign : UInt64 := (bits >>> 31).toUInt64 <<< 63
  let exponent := (bits >>> 23) &&& 0xff
  let fraction := (bits &&& 0x7fffff).toUInt64
  if exponent = 0xff then
    if fraction = 0 then Float.ofBits (sign ||| 0x7ff0000000000000)
    else Float.ofBits 0x7ff8000000000000
  else if exponent = 0 then
    -- A subnormal single is a multiple of 2^-149, which is a normal double.
    Float.ofBits (sign ||| (fraction.toFloat * Float.ofBits 0x36a0000000000000).toBits)
  else
    Float.ofBits (sign ||| ((exponent.toUInt64 + 896) <<< 52) ||| (fraction <<< 29))

/-- The single nearest to a double. -/
def narrow (x : Float) : Float32 :=
  let bits := x.toBits
  let sign : UInt32 := (bits >>> 63).toUInt32 <<< 31
  let exponent := ((bits >>> 52) &&& 0x7ff).toNat
  let fraction := (bits &&& 0xfffffffffffff).toNat
  if exponent = 0x7ff then
    if fraction = 0 then Float32.ofBits (sign ||| 0x7f800000) else Float32.ofBits 0x7fc00000
  else
    let significand := if exponent = 0 then fraction else fraction + (1 <<< 52)
    -- A carry out of the significand raises the exponent by one, as it should.
    let magnitude :=
      if 897 ≤ exponent then ((exponent - 897) <<< 23) + roundShift significand 29
      else roundShift significand (29 + (897 - max exponent 1))
    Float32.ofBits (sign ||| (min magnitude 0x7f800000).toUInt32)

end Espalier
