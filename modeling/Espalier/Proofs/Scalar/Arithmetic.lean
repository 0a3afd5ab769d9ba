import Espalier.Proofs.Scalar.Positive

/-!
# Operations that keep the order of doubles

Taking a number off, and multiplying by a positive one, are monotone on exact numbers. Subtraction
and multiplication of floats give what the exact result is rounded to, and rounding is monotone, so
they are monotone too. An infinity stays what it is under both.

Results:
1. `rounds_self`, `sub_rounds`, `mul_rounds`: a float, a difference and a product are what their
   exact values are rounded to.
2. `le_of_rounds`: an operation that rounds a monotone one is monotone.
3. `double_sub_le_sub`, `double_mul_le_mul`: both cases, for doubles.
4. `settle_number`, `double_div_number`: what is no NaN.
-/

namespace Espalier

open Float.Model (Format UnpackedFloat totalExponent)
open Float.Model.UnpackedFloat

variable {spec : Format}

/-! ## Exact results -/

theorem round_eq_self {s : Sign} {m : Nat} {e : Int} (hm : 0 < m)
    (h : spec.targetExponent (totalExponent m e) = e) :
    UnpackedFloat.round spec s m e = .finite s m e hm := by
  have hround := round_shifted (s := s) hm h 0
  rw [Nat.pow_zero, Nat.mul_one] at hround
  rw [UnpackedFloat.round, h, decreaseExponent, Int.sub_self]
  exact hround

theorem apply_neg (s : Sign) (n : Int) : (-s).apply n = -s.apply n := by
  cases s with
  | positive => rfl
  | negative => exact (Int.neg_neg n).symm

/-- A float of the format is what its value is rounded to. -/
theorem rounds_self {a : UnpackedFloat} (ha : Canonical spec a) (hfa : a.isFinite) :
    Rounds spec (value a) a := by
  rcases a with _ | _ | z | ⟨s, m, e, hm⟩ <;> try cases hfa
  · exact ⟨0, 0, z, by simp [value], rfl⟩
  · exact ⟨s.apply m, e, .positive, rfl, by rw [normalize_apply s hm, round_eq_self hm ha]⟩

theorem apply_mul (s s' : Sign) (n n' : Int) :
    (s * s').apply (n * n') = s.apply n * s'.apply n' := by
  cases s <;> cases s'
  · exact (Int.neg_mul_neg n n').symm
  · exact (Int.neg_mul n n').symm
  · exact (Int.mul_neg n n').symm
  · rfl

theorem apply_shiftLeft (s : Sign) (m : Nat) {e low : Int} (h : low ≤ e) :
    (s.apply (m <<< (e - low).toNat : Nat) : ℚ) * 2 ^ low = s.apply m * 2 ^ e := by
  have he : e = low + (e - low).toNat := by omega
  rw [Nat.shiftLeft_eq]
  conv_rhs => rw [he, ← scaled_eq]
  cases s <;> simp [Sign.apply]

theorem sub_rounds {a b : UnpackedFloat} (ha : Canonical spec a) (hb : Canonical spec b)
    (hfa : a.isFinite) (hfb : b.isFinite) : Rounds spec (value a - value b) (sub spec a b) := by
  rcases a with _ | _ | z | ⟨s, m, e, hm⟩ <;> try cases hfa
  all_goals rcases b with _ | _ | z' | ⟨s', m', e', hm'⟩ <;> try cases hfb
  · refine ⟨0, 0, if z == -z' then z else .positive, by simp [value], ?_⟩
    rw [sub]
    split <;> rfl
  · have hneg : value (.zero z) - value (.finite s' m' e' hm') =
        value (.finite (-s') m' e' hm') := by
      simp [value, apply_neg]
    rw [hneg]
    exact rounds_self hb rfl
  · have hzero : value (.finite s m e hm) - value (.zero z') = value (.finite s m e hm) :=
      sub_zero _
    rw [hzero]
    exact rounds_self ha rfl
  · refine ⟨_, _, _, ?_, rfl⟩
    rw [Int.cast_sub, sub_mul, apply_shiftLeft s m (Int.min_le_left e e'),
      apply_shiftLeft s' m' (Int.min_le_right e e')]
    rfl

theorem mul_rounds {a b : UnpackedFloat} (ha : Canonical spec a) (hb : Canonical spec b)
    (hfa : a.isFinite) (hfb : b.isFinite) : Rounds spec (value a * value b) (mul spec a b) := by
  rcases a with _ | _ | z | ⟨s, m, e, hm⟩ <;> try cases hfa
  all_goals rcases b with _ | _ | z' | ⟨s', m', e', hm'⟩ <;> try cases hfb
  · exact ⟨0, 0, z * z', by simp [value], rfl⟩
  · exact ⟨0, 0, z * s', by simp [value], rfl⟩
  · exact ⟨0, 0, s * z', by simp [value], rfl⟩
  · have hpos := Nat.mul_pos hm hm'
    have hlow : e + e' ≤ spec.targetExponent (totalExponent (m * m') (e + e')) := by
      have hbits : spec.mantissaBits = 1 + spec.mantissaBitsWithoutImplicit := rfl
      have hmin : spec.minExponent = 3 - 2 ^ (spec.exponentBits - 1) - spec.mantissaBits := rfl
      have hroom : (1 : Int) ≤ 2 ^ (spec.exponentBits - 1) := one_le_pow₀ one_le_two
      have hsome := spec.hm
      have hlog : m.log2 + m'.log2 ≤ (m * m').log2 := by
        rw [Nat.le_log2 (Nat.ne_of_gt hpos), Nat.pow_add]
        exact Nat.mul_le_mul (Nat.log2_self_le (Nat.ne_of_gt hm))
          (Nat.log2_self_le (Nat.ne_of_gt hm'))
      rw [Canonical, targetExponent_eq] at ha hb
      rw [targetExponent_eq]
      omega
    have hround : roundWithAccuracy spec (s * s') (m * m') (e + e') .exact =
        UnpackedFloat.round spec (s * s') (m * m') (e + e') := by
      have hnone : (e + e' - spec.targetExponent (totalExponent (m * m') (e + e'))).toNat = 0 := by
        omega
      simp only [UnpackedFloat.round, decreaseExponent, hnone]
      simp
    refine ⟨(s * s').apply (m * m' : Nat), e + e', .positive, ?_, ?_⟩
    · rw [Int.natCast_mul, apply_mul, zpow_add₀ two_ne_zero, value, value]
      push_cast
      ring
    · rw [normalize_apply _ hpos, ← hround, mul]

/-- An operation that is worked out exactly and then rounded keeps the order if the exact one
does. -/
theorem le_of_rounds {f : UnpackedFloat → UnpackedFloat} {t : ℚ → ℚ} (hmono : Monotone t)
    (hinfinity : ∀ s, f (.infinity s) = .infinity s)
    (hrounds : ∀ {a}, Canonical spec a → a.isFinite → Rounds spec (t (value a)) (f a))
    {a b : UnpackedFloat} (ha : Canonical spec a) (hb : Canonical spec b) (h : a.le b) :
    (settle spec (f a)).le (settle spec (f b)) := by
  have hsettle : ∀ s, settle spec (f (.infinity s)) = .infinity s := by
    intro s
    rw [hinfinity]
    exact unpack_packedInfinity s
  have hself : ∀ {c}, Canonical spec c → c.isFinite → (settle spec (f c)).le (settle spec (f c)) :=
    fun hc hfc => (hrounds hc hfc).mono (hrounds hc hfc) le_rfl
  have hfinite : a.isFinite → b.isFinite → (settle spec (f a)).le (settle spec (f b)) := by
    intro hfa hfb
    have hvalue := (unpacked_le_iff_value ha hb hfa hfb).mp h
    exact (hrounds ha hfa).mono (hrounds hb hfb) (hmono hvalue)
  -- Below, one of the two is infinite, and stays so.
  match a, b with
  | .notANumber, _ => cases h
  | .infinity .negative, .infinity s => rw [hsettle, hsettle]; cases s <;> rfl
  | .infinity .negative, .zero _ => rw [hsettle]; exact infinity_le (hself hb rfl)
  | .infinity .negative, .finite .. => rw [hsettle]; exact infinity_le (hself hb rfl)
  | .infinity .positive, .infinity .positive => rw [hsettle]; rfl
  | .zero _, .infinity .positive => rw [hsettle]; exact le_infinity (hself ha rfl)
  | .finite .., .infinity .positive => rw [hsettle]; exact le_infinity (hself ha rfl)
  | .zero _, .zero _ | .zero _, .finite .. | .finite .., .zero _ | .finite .., .finite .. =>
    exact hfinite rfl rfl

/-! ## Numbers -/

/-- Packing makes no NaN, in range or not. -/
theorem settle_number {a : UnpackedFloat} (h : a.isNaN = false) :
    (settle spec a).isNaN = false := by
  have hunpack : ∀ s (exponent : BitVec spec.exponentBits) mantissa, exponent ≠ -1#_ →
      (unpack spec (packComponents spec s exponent mantissa)).isNaN = false := by
    intro s exponent mantissa hones
    simp only [unpack, unpackExponent_packComponents, if_neg hones]
    split
    · split <;> rfl
    · rfl
  rw [settle]
  rcases a with s | _ | s | ⟨s, m, e, hm⟩
  · rw [pack, unpack_packedInfinity]
    rfl
  · cases h
  · rw [pack, unpack_packedZero]
    rfl
  · rw [pack]
    split
    · rw [unpack_packedInfinity]
      rfl
    next hroom =>
      split
      · refine hunpack _ _ _ fun hones => hroom ?_
        rw [← BitVec.toNat_inj, BitVec.toNat_ofNat, BitVec.neg_one_eq_allOnes,
          BitVec.toNat_allOnes] at hones
        exact Nat.le_add_of_sub_le (hones ▸ Nat.mod_le _ _)
      · exact hunpack _ _ _ zeros_ne_ones

theorem roundWithAccuracy_number (s : Sign) (m : Nat) (e : Int) (acc : Accuracy) :
    (roundWithAccuracy spec s m e acc).isNaN = false := by
  rw [roundWithAccuracy]
  simp only
  split <;> rfl

/-! ## Doubles -/

/-- Taking the same number off both keeps the order. -/
theorem double_sub_le_sub {x y z : Float} (hz : z.isFinite) (h : x ≤ y) : x - z ≤ y - z := by
  have hxy : x.toModel.unpack.le y.toModel.unpack := decide_eq_true_iff.mp h
  have hcanonical : Canonical .binary64 z.toModel.unpack := canonical_unpack _
  replace hz : z.toModel.unpack.isFinite := hz
  refine decide_eq_true_iff.mpr ?_
  refine le_of_rounds (f := fun a => sub .binary64 a z.toModel.unpack)
    (t := fun q => q - value z.toModel.unpack) (fun q q' hq => sub_le_sub_right hq _) ?_
    (fun ha hfa => sub_rounds ha hcanonical hfa hz) (canonical_unpack _) (canonical_unpack _) hxy
  intro s
  match z.toModel.unpack, hz with
  | .zero _, _ | .finite .., _ => rfl

/-- A positive factor keeps the order. -/
theorem double_mul_le_mul {x y z : Float} (hz : z.isFinite) (hpos : 0 < z) (h : x ≤ y) :
    x * z ≤ y * z := by
  have hxy : x.toModel.unpack.le y.toModel.unpack := decide_eq_true_iff.mp h
  have hcanonical : Canonical .binary64 z.toModel.unpack := canonical_unpack _
  replace hz : z.toModel.unpack.isFinite := hz
  rw [double_pos_iff] at hpos
  have hvalue : 0 ≤ value z.toModel.unpack := by
    match z.toModel.unpack, hpos with
    | .infinity .positive, _ => exact le_rfl
    | .finite .positive m e hm, _ => exact (magnitude_pos hm e).le
  refine decide_eq_true_iff.mpr ?_
  refine le_of_rounds (f := fun a => mul .binary64 a z.toModel.unpack)
    (t := fun q => q * value z.toModel.unpack)
    (fun q q' hq => mul_le_mul_of_nonneg_right hq hvalue) ?_
    (fun ha hfa => mul_rounds ha hcanonical hfa hz) (canonical_unpack _) (canonical_unpack _) hxy
  intro s
  match z.toModel.unpack, hz, hpos with
  | .finite .positive .., _, _ => cases s <;> rfl

theorem double_zero_mul {x : Float} (hx : x.isFinite) (hpos : 0 < x) : 0 * x = 0 := by
  have hmul : mul .binary64 (.zero .positive) x.toModel.unpack = .zero .positive := by
    rw [double_pos_iff] at hpos
    replace hx : x.toModel.unpack.isFinite := hx
    match x.toModel.unpack, hx, hpos with
    | .finite .positive .., _, _ => rfl
  show Float.ofModel (.pack (.mul .binary64 (.zero .positive) x.toModel.unpack)) = 0
  rw [hmul]
  rfl

theorem double_ofUInt64_number (n : UInt64) : n.toFloat.isNaN = false := by
  refine settle_number (a := UnpackedFloat.ofUInt64 .binary64 n) ?_
  rw [UnpackedFloat.ofUInt64, UnpackedFloat.ofNat, UnpackedFloat.ofInt, UnpackedFloat.normalize]
  split
  · exact roundWithAccuracy_number ..
  · rfl
  · exact roundWithAccuracy_number ..

theorem double_div_number {x y : Float} (hx : x.isNaN = false) (hy : y.isFinite) (hpos : 0 < y) :
    (x / y).isNaN = false := by
  refine settle_number (a := div .binary64 x.toModel.unpack y.toModel.unpack) ?_
  rw [double_pos_iff] at hpos
  replace hx : x.toModel.unpack.isNaN = false := hx
  replace hy : y.toModel.unpack.isFinite := hy
  match x.toModel.unpack, hx, y.toModel.unpack, hy, hpos with
  | .infinity _, _, .finite .positive .., _, _ | .zero _, _, .finite .positive .., _, _ => rfl
  | .finite .., _, .finite .positive .., _, _ => exact roundWithAccuracy_number ..

end Espalier
