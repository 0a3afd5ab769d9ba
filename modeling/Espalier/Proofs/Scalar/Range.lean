import Espalier.Precision
import Espalier.Proofs.Scalar.Rounding

/-!
# Ranges of singles

That a single lies between two others takes two comparisons, and what passes both is a number. Which
numbers are singles at all shows when a double is narrowed. Narrowing works on the fields of a
double: half a unit of the last place beyond the largest single, the significand is rounded up to a
power of two, the carry raises the exponent, and what is left has the bits of an infinity.

Results:
1. `single_abs_le_one_iff`: the singles between `-1` and `1`.
2. `abs_value_eq`: the magnitude of a double, by its fields.
3. `narrow_infinite`: from which magnitude on the nearest single is no finite one.
-/

namespace Espalier

open Float.Model (Format UnpackedFloat)
open Float.Model.UnpackedFloat

/-! ## Singles of at most one -/

theorem single_one_unpack :
    (1 : Float32).toModel.unpack = .finite .positive (2 ^ 23) (-23) (by decide) := rfl

theorem single_neg_one_unpack :
    (-1 : Float32).toModel.unpack = .finite .negative (2 ^ 23) (-23) (by decide) := rfl

/-- A single passes both comparisons if it is a number of at most one in magnitude. -/
theorem single_abs_le_one_iff {x : Float32} :
    -1 ≤ x ∧ x ≤ 1 ↔ x.isFinite ∧ |value x.toModel.unpack| ≤ 1 := by
  rw [single_le_iff_unpacked, single_le_iff_unpacked]
  by_cases hx : x.isFinite
  · have hcanonical : ∀ y : Float32, Canonical .binary32 y.toModel.unpack :=
      fun y => @canonical_unpack .binary32 y.toBits.toBitVec
    have hone : value (1 : Float32).toModel.unpack = 1 := by
      norm_num [single_one_unpack, value, Sign.apply]
    have hneg : value (-1 : Float32).toModel.unpack = -1 := by
      norm_num [single_neg_one_unpack, value, Sign.apply]
    rw [unpacked_le_iff_value (hcanonical _) (hcanonical _) rfl hx,
      unpacked_le_iff_value (hcanonical _) (hcanonical _) hx rfl, hone, hneg, abs_le]
    exact ⟨fun h => ⟨hx, h⟩, fun h => h.2⟩
  · have hinfinite : x.toModel.unpack.isFinite = false := Bool.not_eq_true _ ▸ hx
    rw [single_one_unpack, single_neg_one_unpack]
    refine iff_of_false ?_ fun h => hx h.1
    rcases hu : x.toModel.unpack with (_ | _) | _ | _ | _ <;> rw [hu] at hinfinite <;>
      simp_all [UnpackedFloat.le, UnpackedFloat.compare, UnpackedFloat.isFinite]

/-! ## Fields of a double -/

variable {x : Float}

def exponentField (x : Float) : Nat := ((x.toBits >>> 52) &&& 0x7ff).toNat

def fractionField (x : Float) : Nat := (x.toBits &&& 0xfffffffffffff).toNat

/-- The significand of a double, with the leading bit that is not written. -/
def significand (x : Float) : Nat :=
  if exponentField x = 0 then fractionField x else fractionField x + (1 <<< 52)

theorem toNat_unpackExponent (x : Float) :
    (@unpackExponent .binary64 x.toBits.toBitVec).toNat = exponentField x :=
  (Nat.and_two_pow_sub_one_eq_mod (x.toBits.toNat >>> 52) 11).symm

theorem toNat_unpackMantissa (x : Float) :
    (@unpackMantissa .binary64 x.toBits.toBitVec).toNat = fractionField x :=
  (Nat.and_two_pow_sub_one_eq_mod x.toBits.toNat 52).symm

theorem fractionField_lt (x : Float) : fractionField x < 2 ^ 52 := by
  rw [← toNat_unpackMantissa]
  exact BitVec.isLt _

theorem significand_lt (x : Float) : significand x < 2 ^ 53 := by
  have hfraction := fractionField_lt x
  unfold significand
  split <;> omega

/-! ## Magnitudes -/

theorem abs_value_eq (x : Float) : |value x.toModel.unpack| =
    if exponentField x = 0x7ff then 0
    else (significand x : ℚ) * 2 ^ ((max (exponentField x) 1 : Nat) - 1075 : Int) := by
  have hexponent := toNat_unpackExponent x
  have hmantissa := toNat_unpackMantissa x
  show |value (unpack .binary64 x.toBits.toBitVec)| = _
  unfold unpack
  dsimp only
  split
  next hones =>
    have htop : exponentField x = 0x7ff := by rw [← hexponent, hones]; rfl
    rw [if_pos htop]
    split <;> simp [value]
  next hones =>
    have htop : exponentField x ≠ 0x7ff :=
      fun h => hones (BitVec.eq_of_toNat_eq (hexponent.trans h))
    rw [if_neg htop, significand]
    split
    next hzeros =>
      have hlow : exponentField x = 0 := by rw [← hexponent, hzeros]; rfl
      rw [if_pos hlow]
      split
      next hnone =>
        have hfraction : fractionField x = 0 := by rw [← hmantissa, hnone]; rfl
        simp [value, hfraction]
      · rw [abs_value_finite, hmantissa, hexponent, hlow]
        rfl
    next hzeros =>
      have hlow : exponentField x ≠ 0 :=
        fun h => hzeros (BitVec.eq_of_toNat_eq (hexponent.trans h))
      rw [abs_value_finite, toNat_implicit, hmantissa, hexponent, if_neg hlow,
        max_eq_left (Nat.one_le_iff_ne_zero.mpr hlow), Nat.add_comm]
      rfl

/-- A double that is too large for a single has one of the highest exponents, and with the least of
these a significand that is rounded up to a power of two. -/
theorem fields_of_large (h : 2 ^ 128 - 2 ^ 103 ≤ |value x.toModel.unpack|) :
    exponentField x ≠ 0x7ff ∧ 1150 ≤ exponentField x ∧
      (exponentField x = 1150 → 2 ^ 53 - 2 ^ 28 ≤ significand x) := by
  rw [abs_value_eq] at h
  split at h
  · norm_num at h
  next hfinite =>
    refine ⟨hfinite, ?_, fun heq => ?_⟩
    · by_contra hsmall
      have hexponent : ((max (exponentField x) 1 : Nat) - 1075 : Int) ≤ 74 := by omega
      have hle : (significand x : ℚ) * 2 ^ ((max (exponentField x) 1 : Nat) - 1075 : Int) ≤
          2 ^ 53 * 2 ^ (74 : Int) :=
        mul_le_mul (by exact_mod_cast (significand_lt x).le)
          (zpow_le_zpow_right₀ one_le_two hexponent) (zpow_pos two_pos _).le (by norm_num)
      have hbound := h.trans hle
      norm_num at hbound
    · rw [heq] at h
      have hscaled : ((2 ^ 53 - 2 ^ 28 : Nat) : ℚ) * 2 ^ 75 ≤ significand x * 2 ^ 75 := by
        norm_num at h ⊢
        exact h
      exact_mod_cast le_of_mul_le_mul_right hscaled (by norm_num)

/-! ## Narrowing -/

theorem ofBits_infinite (bits : UInt64) :
    (Float32.ofBits ((bits >>> 63).toUInt32 <<< 31 ||| 0x7f800000)).isFinite = false := by
  have hlt : bits.toNat >>> 63 < 2 := by
    rw [Nat.shiftRight_eq_div_pow]
    have := bits.toNat_lt
    omega
  have hsign : bits >>> 63 = 0 ∨ bits >>> 63 = 1 := by
    rw [← UInt64.toNat_inj, ← UInt64.toNat_inj]
    show bits.toNat >>> 63 = 0 ∨ bits.toNat >>> 63 = 1
    omega
  rcases hsign with h | h <;> rw [h] <;> decide

/-- From half a unit of its last place beyond the largest single on, the nearest single is an
infinity. -/
theorem narrow_infinite (h : 2 ^ 128 - 2 ^ 103 ≤ |value x.toModel.unpack|) :
    (narrow x).isFinite = false := by
  obtain ⟨hfinite, hlarge, hleast⟩ := fields_of_large h
  have hlow : 2 ^ 52 ≤ significand x := by
    rw [significand, if_neg (by omega)]
    omega
  have hlt := significand_lt x
  have hcarry : 0x7f800000 ≤
      ((exponentField x - 897) <<< 23) + roundShift (significand x) 29 := by
    simp only [roundShift, Nat.shiftLeft_eq, Nat.shiftRight_eq_div_pow, Nat.one_mul]
    split <;> omega
  have hnarrow : narrow x = Float32.ofBits ((x.toBits >>> 63).toUInt32 <<< 31 |||
      (min (if 897 ≤ exponentField x
        then ((exponentField x - 897) <<< 23) + roundShift (significand x) 29
        else roundShift (significand x) (29 + (897 - max (exponentField x) 1)))
      0x7f800000).toUInt32) := if_neg hfinite
  rw [hnarrow, if_pos (by omega), min_eq_right hcarry]
  exact ofBits_infinite _

end Espalier
