import Mathlib

/-!
# Operations that round nothing

An operation on floats unpacks its operands, works on their parts, rounds the result and packs it.
Packing undoes unpacking, and a result that fits its format already is not rounded, so a zero that
is taken away and a factor of one leave no trace: not on a number, an infinity or a NaN, and not on
the sign of a zero.

Results:
1. `round_shifted`: rounding drops the zeros behind a mantissa that fits.
2. `single_sub_zero`, `single_mul_one`: zero and one are neutral.
-/

namespace Espalier

open Float.Model (Format UnpackedFloat totalExponent)
open Float.Model.UnpackedFloat

variable {spec : Format} {b : BitVec spec.numBits}

/-! ## Unpacked floats -/

theorem toNat_implicit {n : Nat} (m : BitVec n) : (1#1 ++ m).toNat = 2 ^ n + m.toNat := by
  rw [BitVec.toNat_append, ← Nat.shiftLeft_add_eq_or_of_lt m.isLt]
  simp [Nat.shiftLeft_eq]

/-- The implicit bit is the highest of a normal mantissa. -/
theorem log2_implicit {n : Nat} (m : BitVec n) : (1#1 ++ m).toNat.log2 = n := by
  have hm := m.isLt
  rw [toNat_implicit, Nat.log2_eq_iff (by omega), Nat.pow_succ]
  omega

/-- A finite float has the exponent that its format asks for. -/
theorem targetExponent_of_unpack {s : Sign} {m : Nat} {e : Int} {h : 0 < m}
    (hfloat : unpack spec b = .finite s m e h) :
    spec.targetExponent (totalExponent m e) = e := by
  have hbias : (spec.exponentBias : Int) = 2 ^ (spec.exponentBits - 1) - 1 := by
    rw [Format.exponentBias, Int.ofNat_sub Nat.one_le_two_pow]
    simp
  unfold unpack at hfloat
  dsimp only at hfloat
  split at hfloat
  · split at hfloat <;> cases hfloat
  · split at hfloat
    next hsub =>
      split at hfloat
      · cases hfloat
      · cases hfloat
        have hlog := (Nat.log2_lt (Nat.ne_of_gt h)).mpr (unpackMantissa b).isLt
        simp only [Format.targetExponent, totalExponent, Format.minExponent, Format.mantissaBits,
          hsub, BitVec.toNat_zero]
        omega
    next hnorm =>
      cases hfloat
      have hpos : (unpackExponent b).toNat ≠ 0 := by
        simpa [BitVec.toNat_eq] using hnorm
      simp only [Format.targetExponent, totalExponent, Format.minExponent, Format.mantissaBits,
        log2_implicit]
      omega

/-! ## Rounding -/

/-- Zeros are dropped without a trace. -/
theorem shiftRight_exact (m k : Nat) :
    (ExtendedMantissa.ofMantissaAndAccuracy (m * 2 ^ k) .exact >>> k) =
      ExtendedMantissa.ofMantissaAndAccuracy m .exact := by
  induction k generalizing m with
  | zero => rw [Nat.pow_zero, Nat.mul_one]; rfl
  | succ k ih =>
    have hstep : ∀ em : ExtendedMantissa, em >>> (k + 1) = (em >>> k).shiftRightOne :=
      fun _ => rfl
    rw [hstep, Nat.pow_succ', ← Nat.mul_assoc, ih]
    simp [ExtendedMantissa.shiftRightOne, ExtendedMantissa.ofMantissaAndAccuracy]

theorem totalExponent_shifted {m : Nat} (h : 0 < m) (e : Int) (k : Nat) :
    totalExponent (m * 2 ^ k) (e - k) = totalExponent m e := by
  have hlog : (m * 2 ^ k).log2 = m.log2 + k := by
    rw [Nat.log2_eq_iff (Nat.ne_of_gt (Nat.mul_pos h (Nat.two_pow_pos k))), Nat.pow_add,
      Nat.add_right_comm, Nat.pow_add]
    exact ⟨Nat.mul_le_mul_right _ (Nat.log2_self_le (Nat.ne_of_gt h)),
      Nat.mul_lt_mul_of_pos_right Nat.lt_log2_self (Nat.two_pow_pos k)⟩
  rw [totalExponent, totalExponent, hlog]
  omega

/-- A mantissa that fits is not rounded, with any number of zeros behind it. -/
theorem round_shifted {s : Sign} {m : Nat} {e : Int} (h : 0 < m)
    (htarget : spec.targetExponent (totalExponent m e) = e) (k : Nat) :
    roundWithAccuracy spec s (m * 2 ^ k) (e - k) .exact = .finite s m e h := by
  have hshift : ∀ k : Nat, shiftToTargetExponent spec (m * 2 ^ k) (e - k) .exact =
      (.ofMantissaAndAccuracy m .exact, e) := by
    intro k
    have hamount : (e - (e - k)).toNat = k := by omega
    simp only [shiftToTargetExponent, shiftToExponent, totalExponent_shifted h, htarget, hamount,
      shiftRight_exact]
    simp
  have hstay : shiftToTargetExponent spec m e .exact = (.ofMantissaAndAccuracy m .exact, e) := by
    simpa using hshift 0
  have hrounded : (ExtendedMantissa.ofMantissaAndAccuracy m .exact).roundedMantissa = m := rfl
  have hmantissa : (ExtendedMantissa.ofMantissaAndAccuracy m .exact).mantissa = m := rfl
  simp only [roundWithAccuracy, hshift, hrounded, hstay, hmantissa, dif_neg (Nat.ne_of_gt h)]

/-! ## Singles -/

theorem single_pack_unpack (x : Float32) : Float32.ofModel (.pack x.toModel.unpack) = x := by
  rcases x with ⟨⟨bits, valid⟩⟩
  simp only [Float32.Model.pack, Float32.Model.unpack, Float32.ofModel.injEq, Float32.Model.mk.injEq]
  exact congrArg UInt32.ofBitVec (pack_unpack_of_valid valid)

theorem single_sub_zero (x : Float32) : x - 0 = x := by
  have hsub : UnpackedFloat.sub .binary32 x.toModel.unpack (.zero .positive) =
      x.toModel.unpack := by
    rcases x.toModel.unpack with _ | _ | (_ | _) | _ <;> rfl
  show Float32.ofModel (.pack (.sub .binary32 x.toModel.unpack (.zero .positive))) = x
  rw [hsub]
  exact single_pack_unpack x

theorem single_mul_one (x : Float32) : x * 1 = x := by
  have hone : (1 : Float32).toModel.unpack = .finite .positive (2 ^ 23) (-23) (by decide) := rfl
  have hmul : UnpackedFloat.mul .binary32 x.toModel.unpack (1 : Float32).toModel.unpack =
      x.toModel.unpack := by
    rw [hone]
    cases hx : x.toModel.unpack with
    | infinity s => cases s <;> rfl
    | notANumber => rfl
    | zero s => cases s <;> rfl
    | finite s m e h =>
      have hround := round_shifted (s := s) h (targetExponent_of_unpack hx) 23
      cases s <;> exact hround
  show Float32.ofModel (.pack (.mul .binary32 x.toModel.unpack (1 : Float32).toModel.unpack)) = x
  rw [hmul]
  exact single_pack_unpack x

end Espalier
