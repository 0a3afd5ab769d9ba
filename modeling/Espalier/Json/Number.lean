import Espalier.Precision

/-!
# Numbers of a JSON text

A number is kept as the digits that were written. What it is worth depends on who reads it:

* a count takes whole literals only, with neither sign, fraction nor exponent;
* a float takes every literal whose value a double can hold. Its significand is cut to what fits a
  64-bit word, and then multiplied or divided once by a power of ten.
-/

namespace Espalier.Json

/-- A number as written. -/
structure Number where
  negative : Bool
  whole : List Nat
  /-- The digits behind the point, if there is one. -/
  fraction : Option (List Nat)
  /-- The exponent of ten, if there is one. -/
  exponent : Option Int

namespace Number

/-! ## Reading -/

def digit? (c : Char) : Option Nat :=
  if '0' ≤ c ∧ c ≤ '9' then some (c.toNat - '0'.toNat) else none

/-- The leading decimal digits and what follows them. -/
def digits : List Char → List Nat × List Char
  | [] => ([], [])
  | c :: cs =>
    match digit? c with
    | some d => let (ds, rest) := digits cs; (d :: ds, rest)
    | none => ([], c :: cs)

def natOfDigits (ds : List Nat) : Nat := ds.foldl (fun n d => 10 * n + d) 0

/-- An exponent part, or none, up to the end of the literal. -/
def exponent? : List Char → Option (Option Int)
  | [] => some none
  | c :: cs =>
    if c = 'e' ∨ c = 'E' then
      let (negative, cs) := match cs with
        | '+' :: cs => (false, cs)
        | '-' :: cs => (true, cs)
        | cs => (false, cs)
      match digits cs with
      | (d :: ds, []) =>
        let n : Int := natOfDigits (d :: ds)
        some (some (if negative then -n else n))
      | _ => none
    else none

/-- A fraction part and an exponent part, either or both missing, up to the end of the literal. -/
def fractionAndExponent? : List Char → Option (Option (List Nat) × Option Int)
  | '.' :: cs =>
    match digits cs with
    | (d :: ds, rest) => (exponent? rest).map (some (d :: ds), ·)
    | ([], _) => none
  | cs => (exponent? cs).map (none, ·)

/-- The number with the given literal. A zero before the point stands alone. -/
def ofChars? (cs : List Char) : Option Number :=
  let (negative, cs) := match cs with
    | '-' :: cs => (true, cs)
    | cs => (false, cs)
  match digits cs with
  | ([], _) => none
  | (0 :: _ :: _, _) => none
  | (whole, rest) => (fractionAndExponent? rest).map fun (f, e) => ⟨negative, whole, f, e⟩

/-! ## Counts -/

/-- The value of a literal with neither sign, fraction nor exponent. -/
def count? (n : Number) : Option Nat :=
  if n.negative ∨ n.fraction.isSome ∨ n.exponent.isSome then none
  else some (natOfDigits n.whole)

/-! ## Floats -/

/-- A significand that fits a word, and the power of ten that goes with it. -/
structure Scaled where
  significand : Nat
  exponent : Int

/-- Takes in digits before the point. From the first that does not fit, they only raise the
exponent. -/
def Scaled.pushWhole (s : Scaled) : List Nat → Scaled
  | [] => s
  | d :: ds =>
    if 10 * s.significand + d < UInt64.size then
      Scaled.pushWhole ⟨10 * s.significand + d, s.exponent⟩ ds
    else ⟨s.significand, s.exponent + (ds.length + 1)⟩

/-- Takes in digits behind the point. From the first that does not fit, they are ignored. -/
def Scaled.pushFraction (s : Scaled) : List Nat → Scaled
  | [] => s
  | d :: ds =>
    if 10 * s.significand + d < UInt64.size then
      Scaled.pushFraction ⟨10 * s.significand + d, s.exponent - 1⟩ ds
    else s

/-- The double nearest to `10^n`, for `n` up to 308. -/
def powerOfTen (n : Nat) : Float := Float.ofScientific 1 false n

/-- The value as a double, if it is in range. -/
def Scaled.toDouble? (s : Scaled) : Option Float :=
  let f := s.significand.toUInt64.toFloat
  let e := s.exponent
  if 308 < e then if s.significand = 0 then some f else none
  else if 0 ≤ e then
    let v := f * powerOfTen e.toNat
    if v.isInf then none else some v
  else if -308 ≤ e then some (f / powerOfTen (-e).toNat)
  else if -616 ≤ e then some (f / powerOfTen 308 / powerOfTen (-e - 308).toNat)
  else some 0

/-- The digits of the literal, cut to a word. -/
def scaled (n : Number) : Scaled :=
  let s := (Scaled.mk 0 0).pushWhole n.whole
  let s := s.pushFraction (n.fraction.getD [])
  ⟨s.significand, s.exponent + n.exponent.getD 0⟩

/-- The double that the literal stands for, if it is in range. -/
def toDouble? (n : Number) : Option Float :=
  n.scaled.toDouble?.map fun v => if n.negative then -v else v

def isWhole (n : Number) : Bool := n.fraction.isNone && n.exponent.isNone

/-- The single that the literal stands for. A whole literal that fits a word is rounded once, every
other by way of the double. -/
def toSingle? (n : Number) : Option Float32 :=
  let v := natOfDigits n.whole
  if n.isWhole ∧ ¬ n.negative ∧ v < UInt64.size then some v.toUInt64.toFloat32
  else if n.isWhole ∧ n.negative ∧ 0 < v ∧ v ≤ 1 <<< 63 then some (-v.toUInt64.toFloat32)
  else n.toDouble?.map narrow

end Number

end Espalier.Json
