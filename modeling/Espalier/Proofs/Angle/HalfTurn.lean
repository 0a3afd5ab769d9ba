import Espalier.Proofs.Scalar.Power
import Espalier.Scalar.Single

/-!
# Half turns

The point `(x, y)` with a negative `x` and no `y` at all is at half a turn, in the direction that the
sign of the zero says. The cosine of a quarter turn is not zero: `halfTurn` is a little more than
`π`, so it is negative.

Results:
1. `toBits_of_negative`: the sign bit of a negative single.
2. `arcTangent2_of_negative`: the angle of the point.
3. `cosine_quarter`, `sine_quarter`: cosine and sine of half of it.
-/

namespace Espalier

open Float.Model (Format)
open Float.Model.UnpackedFloat

variable {x y : Float32}

/-! ## Sign bits -/

theorem sign_of_unpack {spec : Format} {b : BitVec spec.numBits} {s : Sign} {m : Nat} {e : Int}
    {hm : 0 < m} (h : unpack spec b = .finite s m e hm) : Sign.ofBitVec (unpackSign b) = s := by
  unfold unpack at h
  dsimp only at h
  split at h
  · split at h <;> cases h
  · split at h
    · split at h
      · cases h
      · cases h
        rfl
    · cases h
      rfl

theorem toBits_of_negative (hx : x.isFinite) (hneg : singleValue x < 0) : x.toBits >>> 31 = 1 := by
  obtain ⟨m, e, hm, hunpack⟩ := exists_negative hx hneg
  have hsign : @unpackSign .binary32 x.toBits.toBitVec = 1#1 := by
    rcases BitVec.eq_zero_or_eq_one (@unpackSign .binary32 x.toBits.toBitVec) with h | h
    · have hpositive := sign_of_unpack hunpack
      have hbits : @unpackSign .binary32 x.toModel.toBits.toBitVec = 0#1 := h
      rw [hbits] at hpositive
      cases hpositive
    · exact h
  have hbit : x.toBits.toNat >>> 31 % 2 = 1 := by
    have hnat := congrArg BitVec.toNat hsign
    rwa [unpackSign, BitVec.toNat_cast, BitVec.extractLsb_toNat] at hnat
  have hroom := x.toBits.toNat_lt
  rw [← UInt32.toNat_inj, UInt32.toNat_shiftRight]
  show x.toBits.toNat >>> 31 = 1
  omega

namespace Angle

theorem arcTangent2_of_negative (hx : x.isFinite) (hneg : singleValue x < 0) (hy : Vanishes y) :
    arcTangent2 y x = halfTurn ∨ arcTangent2 y x = -halfTurn := by
  have hleft := toBits_of_negative hx hneg
  have hone : x.toBits ≠ 0x3f800000 := by
    intro h
    rw [h] at hleft
    revert hleft
    decide
  have hmagnitude : ∀ y, magnitude y = 0 → arcTangent2Magnitude y x = halfTurn := by
    intro y hy
    simp only [arcTangent2Magnitude, hy, hleft, if_neg hone, if_true]
  have hnan : x.isNaN = false := single_number_of_finite hx
  rcases vanishes_iff.mp hy with rfl | rfl
  · left
    rw [arcTangent2, hnan, hmagnitude _ (by decide), if_neg (by decide)]
    decide +kernel
  · right
    rw [arcTangent2, hnan, hmagnitude _ (by decide), if_neg (by decide)]
    decide +kernel

/-- Half a turn, in either direction, divided by two. -/
theorem cosine_quarter {x : Float32} (h : x = halfTurn ∨ x = -halfTurn) :
    cosine (x * 0.5) = Float32.ofBits 0xb33bbd2e := by
  rcases h with rfl | rfl <;> decide +kernel

theorem sine_quarter {x : Float32} (h : x = halfTurn ∨ x = -halfTurn) :
    sine (x * 0.5) = 1 ∨ sine (x * 0.5) = -1 := by
  rcases h with rfl | rfl
  · left
    decide +kernel
  · right
    decide +kernel

end Angle

end Espalier
