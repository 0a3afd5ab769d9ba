/-!
# The shortest decimal of a binary float

A positive float `m * 2^q` stands for every real number that rounds to it. `shortest` finds the
coarsest power-of-ten grid with a point among those numbers, and on that grid the point nearest to
the float, a tie going up. All arithmetic is exact, on natural numbers.
-/

namespace Espalier

/-- The number `digits * 10^exponent`. -/
structure Decimal where
  digits : Nat
  exponent : Int
deriving DecidableEq

namespace Decimal

/-- The real numbers that round to a positive float, as fractions with one denominator. -/
structure RoundingInterval where
  low : Nat
  value : Nat
  high : Nat
  denominator : Nat
  /-- Whether the two ends round to the float as well. -/
  closed : Bool

/-- The interval of the float `m * 2^q`. The gap below it is half as wide when `m` is the least
significand of its binade, which `narrowBelow` says. -/
def RoundingInterval.ofBinary (m : Nat) (q : Int) (narrowBelow : Bool) : RoundingInterval :=
  -- Quarters of the gap above, so that all three numbers are whole.
  let e := q - 2
  let scale := 1 <<< e.toNat
  { low := (if narrowBelow then 4 * m - 1 else 4 * m - 2) * scale
    value := 4 * m * scale
    high := (4 * m + 2) * scale
    denominator := 1 <<< (-e).toNat
    closed := m % 2 = 0 }

/-- The point of the grid `10^exponent` in the interval that is nearest to the value. -/
def RoundingInterval.onGrid? (i : RoundingInterval) (exponent : Int) : Option Decimal :=
  let up := Nat.pow 10 (-exponent).toNat
  let cell := i.denominator * Nat.pow 10 exponent.toNat
  let value := i.value * up
  let inside (n : Nat) : Bool :=
    if i.closed then i.low * up ≤ n * cell && n * cell ≤ i.high * up
    else i.low * up < n * cell && n * cell < i.high * up
  let below := value / cell
  let above := below + 1
  match inside below, inside above with
  | true, true =>
    if value - below * cell < above * cell - value then some ⟨below, exponent⟩
    else some ⟨above, exponent⟩
  | true, false => some ⟨below, exponent⟩
  | false, true => some ⟨above, exponent⟩
  | false, false => none

/-- Looks for a point on `steps` grids, each ten times finer than the one before. -/
def RoundingInterval.refine (i : RoundingInterval) : (steps : Nat) → (exponent : Int) → Decimal
  | 0, exponent => ⟨0, exponent⟩
  | steps + 1, exponent =>
    match i.onGrid? exponent with
    | some d => d
    | none => i.refine steps (exponent - 1)

/-- The shortest decimal that rounds to the float `m * 2^q`, for positive `m`. The search starts on
a grid coarser than the float; twenty steps later every gap between doubles holds a point. -/
def shortest (m : Nat) (q : Int) (narrowBelow : Bool) : Decimal :=
  let start := ((m.log2 : Int) + q + 2) * 30103 / 100000 + 1
  (RoundingInterval.ofBinary m q narrowBelow).refine 22 start

def digitChars (d : Decimal) : List Char := Nat.toDigits 10 d.digits

def leadingExponent (d : Decimal) : Int := d.exponent + d.digitChars.length - 1

end Decimal

/-- What a float is, as far as its text is concerned. -/
inductive FloatShape where
  | nan
  | infinite (negative : Bool)
  | zero (negative : Bool)
  /-- A number with the absolute value nearest to `magnitude`. -/
  | number (negative : Bool) (magnitude : Decimal)

namespace FloatShape

/-- Sign, exponent field and fraction field of a float with `width` fraction bits, whose exponent
field ends at `top` and whose subnormals are multiples of `2^least`. -/
def ofFields (width top : Nat) (least : Int) (negative : Bool) (exponent fraction : Nat) :
    FloatShape :=
  if exponent = top then if fraction = 0 then .infinite negative else .nan
  else if exponent = 0 then
    if fraction = 0 then .zero negative else .number negative (.shortest fraction least false)
  else
    .number negative
      (.shortest (fraction + (1 <<< width)) (least + (exponent - 1 : Nat))
        (fraction = 0 && 1 < exponent))

def ofSingle (x : Float32) : FloatShape :=
  let bits := x.toBits.toNat
  ofFields 23 0xff (-149) (1 <<< 31 ≤ bits) ((bits >>> 23) % (1 <<< 8)) (bits % (1 <<< 23))

def ofDouble (x : Float) : FloatShape :=
  let bits := x.toBits.toNat
  ofFields 52 0x7ff (-1074) (1 <<< 63 ≤ bits) ((bits >>> 52) % (1 <<< 11)) (bits % (1 <<< 52))

end FloatShape

end Espalier
