import Espalier.Scalar.Basic
import Mathlib.Analysis.SpecialFunctions.Complex.Arg

/-!
# Exact scalars

The real numbers as scalars: every operation gives its exact result, and all of them are finite. So
what the geometry computes but for rounding is a law of the real numbers.

The instance is scoped, so that no other module takes the arithmetic of the reals from it. Sums and
products are those of the real numbers by definition, and `ring` sees through them.
-/

namespace Espalier.Exact

noncomputable scoped instance scalar : Scalar ℝ where
  ofNat n := n
  half := 1 / 2
  pi := Real.pi
  sqrt := Real.sqrt
  abs x := |x|
  sin := Real.sin
  cos := Real.cos
  arctan2 y x := Complex.arg ⟨x, y⟩
  lt x y := decide (x < y)
  isFinite _ := true
  oneSigned x := if x < 0 then -1 else 1
  parallel := 1 - 1 / 2 ^ 22
  tiny := 1 / 2 ^ 126

end Espalier.Exact
