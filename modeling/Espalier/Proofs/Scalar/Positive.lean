import Espalier.Proofs.Scalar.Rounding

/-!
# Sums of positive doubles

Rounding never takes a positive number to zero if its exponent is in range already, since it keeps
the leading bit of the mantissa. So a sum of positive doubles is positive: it may be rounded, and
it may be too large for its format and an infinity, but it never vanishes.

Results:
1. `aboveZero_settle`: packing keeps a positive float positive.
2. `double_add_pos`: a double above zero, added to zero or to another one, is above zero.
-/

namespace Espalier

open Float.Model (Format UnpackedFloat totalExponent)
open Float.Model.UnpackedFloat

variable {spec : Format}

/-- The unpacked floats above zero. -/
def AboveZero : UnpackedFloat → Prop
  | .infinity .positive => True
  | .finite .positive _ _ _ => True
  | _ => False

theorem double_pos_iff {x : Float} : 0 < x ↔ AboveZero x.toModel.unpack := by
  have hlt : 0 < x ↔ (UnpackedFloat.zero .positive).lt x.toModel.unpack := decide_eq_true_iff
  rw [hlt]
  rcases x.toModel.unpack with (_ | _) | _ | (_ | _) | ⟨_ | _, m, e, _⟩ <;>
    simp [AboveZero, UnpackedFloat.lt, UnpackedFloat.compare]

/-- Packing keeps a float positive, as a number or as an infinity. -/
theorem aboveZero_settle {a : UnpackedFloat} (ha : Canonical spec a) (hvalue : 0 < value a) :
    AboveZero (settle spec a) := by
  rw [settle_eq_capped ha]
  rcases a with _ | _ | _ | ⟨_ | _, m, e, hm⟩
  case finite.negative =>
    have hnegative : value (.finite .negative m e hm) = -(m * 2 ^ e) := by
      simp [value, Sign.apply]
    rw [hnegative] at hvalue
    exact absurd (magnitude_pos hm e) (not_lt.mpr (neg_pos.mp hvalue).le)
  case finite.positive =>
    rw [capped]
    split <;> trivial
  all_goals exact absurd hvalue (lt_irrefl 0)

/-! ## Sums -/

/-- The exponent of a finite float is in range. -/
theorem minExponent_le_of_unpack {b : BitVec spec.numBits} {s : Sign} {m : Nat} {e : Int}
    {h : 0 < m} (hfloat : unpack spec b = .finite s m e h) : spec.minExponent ≤ e := by
  rw [← targetExponent_of_unpack hfloat]
  exact Int.le_max_right _ _

/-- The sum of two positive floats is a positive mantissa at the smaller of their exponents. -/
theorem aboveZero_add {a b : BitVec spec.numBits} (ha : AboveZero (unpack spec a))
    (hb : AboveZero (unpack spec b)) :
    AboveZero (settle spec (add spec (unpack spec a) (unpack spec b))) := by
  match hx : unpack spec a, hy : unpack spec b with
  | .infinity .positive, .infinity .positive | .infinity .positive, .finite .positive ..
  | .finite .positive .., .infinity .positive =>
    show AboveZero (unpack spec (packedInfinity spec .positive))
    rw [unpack_packedInfinity]
    trivial
  | .finite .positive m e hm, .finite .positive m' e' hm' =>
    have hmin : spec.minExponent ≤ min e e' :=
      Int.le_min.mpr ⟨minExponent_le_of_unpack hx, minExponent_le_of_unpack hy⟩
    obtain ⟨a, ha⟩ : ∃ a, m <<< (e - min e e').toNat = a := ⟨_, rfl⟩
    have hpos : 0 < a + m' <<< (e' - min e e').toNat := by
      rw [← ha, Nat.shiftLeft_eq]
      exact Nat.add_pos_left (Nat.mul_pos hm (Nat.two_pow_pos _)) _
    have hsum : add spec (.finite .positive m e hm) (.finite .positive m' e' hm') =
        UnpackedFloat.round spec .positive (a + m' <<< (e' - min e e').toNat) (min e e') := by
      rw [← normalize_apply .positive hpos _ .positive, add]
      simp only [decreaseExponent, Sign.apply, ha, Int.natCast_add]
    obtain ⟨hcanonical, -, hvalue⟩ := round_value spec .positive hpos (min e e')
    rw [hsum]
    refine aboveZero_settle hcanonical ?_
    rw [hvalue]
    simpa [Sign.apply] using rounding_pos hpos hmin
  | .infinity .negative, _ | .notANumber, _ | .zero _, _ | .finite .negative .., _ =>
    rw [hx] at ha
    exact ha.elim
  | _, .infinity .negative | _, .notANumber | _, .zero _ | _, .finite .negative .. =>
    rw [hy] at hb
    exact hb.elim

theorem double_pack_unpack (x : Float) : Float.ofModel (.pack x.toModel.unpack) = x := by
  rcases x with ⟨⟨bits, valid⟩⟩
  simp only [Float.Model.pack, Float.Model.unpack, Float.ofModel.injEq, Float.Model.mk.injEq]
  exact congrArg UInt64.ofBitVec (pack_unpack_of_valid valid)

theorem double_zero_add {y : Float} (hy : 0 < y) : 0 + y = y := by
  have hadd : add .binary64 (.zero .positive) y.toModel.unpack = y.toModel.unpack := by
    rw [double_pos_iff] at hy
    rcases hunpack : y.toModel.unpack with _ | _ | _ | _
    case zero => rw [hunpack] at hy; exact hy.elim
    all_goals rfl
  show Float.ofModel (.pack (.add .binary64 (.zero .positive) y.toModel.unpack)) = y
  rw [hadd]
  exact double_pack_unpack y

/-- A double above zero, added to zero or to another one, is above zero. -/
theorem double_add_pos {x y : Float} (hx : x = 0 ∨ 0 < x) (hy : 0 < y) : 0 < x + y := by
  rcases hx with rfl | hx
  · rwa [double_zero_add hy]
  · rw [double_pos_iff] at *
    exact aboveZero_add hx hy

end Espalier
