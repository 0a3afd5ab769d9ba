import Espalier.Decimal.Shortest

/-!
# Writing floats

How the digits of a float are laid out. A `Layout` says between which leading exponents a number is
written positionally and how many digits follow the point at least; the three layouts are those of
messages, of rule descriptions and of summaries.
-/

namespace Espalier

/-- The choices of a float format. -/
structure Layout where
  /-- The least and the greatest leading exponent of positional notation, if it has an end. -/
  positional : Option (Int × Int)
  /-- Whether a whole number keeps a zero behind the point. -/
  keepsPoint : Bool

namespace Layout

/-- Always positional, whole numbers without a point. -/
def plain : Layout := ⟨none, false⟩

/-- Positional from `1e-4` and below `1e16`, whole numbers with a point. -/
def described : Layout := ⟨some (-4, 15), true⟩

/-- Doubles of a summary: positional from `1e-5` and below `1e16`, whole numbers with a point. -/
def summaryDouble : Layout := ⟨some (-5, 15), true⟩

/-- Singles of a summary: positional from `1e-6` and below `1e13`, whole numbers with a point. -/
def summarySingle : Layout := ⟨some (-6, 12), true⟩

/-- Digits with the point where the exponent puts it. -/
def positionalText (l : Layout) (d : Decimal) : String :=
  let digits := d.digitChars
  let point := if l.keepsPoint then ".0" else ""
  if 0 ≤ d.exponent then
    String.ofList (digits ++ List.replicate d.exponent.toNat '0') ++ point
  else
    let places := (-d.exponent).toNat
    let padded := List.replicate (places + 1 - digits.length) '0' ++ digits
    String.ofList (padded.take (padded.length - places)) ++ "." ++
      String.ofList (padded.drop (padded.length - places))

/-- One digit before the point, and the exponent of ten. -/
def exponentText (d : Decimal) : String :=
  let mantissa := match d.digitChars with
    | [] => "0"
    | [c] => c.toString
    | c :: cs => c.toString ++ "." ++ String.ofList cs
  mantissa ++ "e" ++ toString d.leadingExponent

def magnitudeText (l : Layout) (d : Decimal) : String :=
  match l.positional with
  | none => l.positionalText d
  | some (least, greatest) =>
    if least ≤ d.leadingExponent ∧ d.leadingExponent ≤ greatest then l.positionalText d
    else exponentText d

def write (l : Layout) : FloatShape → String
  | .nan => "NaN"
  | .infinite negative => if negative then "-inf" else "inf"
  | .zero negative =>
    (if negative then "-0" else "0") ++ (if l.keepsPoint then ".0" else "")
  | .number negative d => (if negative then "-" else "") ++ l.magnitudeText d

def single (l : Layout) (x : Float32) : String := l.write (.ofSingle x)

def double (l : Layout) (x : Float) : String := l.write (.ofDouble x)

end Layout

end Espalier
