import Espalier.Proofs.Scalar.Exact
import Espalier.Proofs.Scalar.Order

/-!
# Rounding keeps the order

An operation on floats is worked out exactly and then rounded. Rounding depends on the exact result
alone, not on the mantissa and the exponent that it is given by, and of two exact results the larger
one is rounded to a float that is not smaller.

A float has an exact value, and the floats of one format compare as their values do. That the
exponent counts before the mantissa agrees with this, since a mantissa is as long as its exponent
allows. Packing takes a float for infinite if its exponent is too large, and keeps it otherwise.

Results:
1. `nearest_mono`, `rounding_mono`: rounding to the nearest is monotone, and `rounding_pos`: it
   leaves something of a magnitude whose exponent is in range.
2. `round_value`, `settle_eq_capped`: what a rounded float is worth, and what packing makes of it.
3. `unpacked_le_iff_value`: finite floats compare as their values do.
4. `Rounds.mono`: what a larger number is rounded and packed to is not smaller.
-/

namespace Espalier

open Float.Model (Format UnpackedFloat totalExponent)
open Float.Model.UnpackedFloat

variable {spec : Format}

/-! ## Mantissas -/

theorem shiftRight_add (em : ExtendedMantissa) (j k : Nat) : em >>> (j + k) = (em >>> j) >>> k := by
  induction k with
  | zero => rfl
  | succ k ih => exact congrArg ExtendedMantissa.shiftRightOne ih

theorem mantissa_shiftRight (em : ExtendedMantissa) (k : Nat) :
    (em >>> k).mantissa = em.mantissa / 2 ^ k := by
  induction k with
  | zero => rw [Nat.pow_zero, Nat.div_one]; rfl
  | succ k ih =>
    have hstep : (em >>> (k + 1)).mantissa = (em >>> k).mantissa / 2 := rfl
    rw [hstep, ih, Nat.div_div_eq_div_mul, Nat.pow_succ]

theorem mantissa_shiftToExponent (m : Nat) (e target : Int) :
    (shiftToExponent m e .exact target).1.mantissa = m / 2 ^ (target - e).toNat :=
  mantissa_shiftRight _ _

/-- A mantissa with its two residual bits, in quarters of its last place. -/
def quarters (em : ExtendedMantissa) : Nat :=
  4 * em.mantissa + 2 * em.roundBit.toNat + em.stickyBit.toNat

theorem quarters_shiftRightOne (em : ExtendedMantissa) :
    quarters em.shiftRightOne = 2 * (quarters em / 4) + min 1 (quarters em % 4) := by
  rcases em with ⟨m, _ | _, _ | _⟩ <;> rcases Nat.mod_two_eq_zero_or_one m with hm | hm <;>
    simp only [quarters, ExtendedMantissa.shiftRightOne, hm] <;> simp <;> omega

theorem quarters_div (em : ExtendedMantissa) : quarters em / 4 = em.mantissa := by
  have hround := em.roundBit.toNat_le
  have hsticky := em.stickyBit.toNat_le
  rw [quarters]
  omega

/-- Two quarters are rounded up from an odd mantissa, three from any. -/
theorem roundedMantissa_eq (em : ExtendedMantissa) :
    em.roundedMantissa = (quarters em + 1 + quarters em / 4 % 2) / 4 := by
  rw [quarters_div]
  rcases em with ⟨m, _ | _, _ | _⟩ <;>
    simp only [quarters, ExtendedMantissa.roundedMantissa, ExtendedMantissa.accuracy,
      Accuracy.roundToNearestEven, Bool.toNat_true, Bool.toNat_false] <;> omega

theorem roundedMantissa_mono {em em' : ExtendedMantissa} (h : quarters em ≤ quarters em') :
    em.roundedMantissa ≤ em'.roundedMantissa := by
  rw [roundedMantissa_eq, roundedMantissa_eq]
  rcases Nat.lt_or_eq_of_le (Nat.div_le_div_right (c := 4) h) with hlt | heq
  · omega
  · rw [heq]
    omega

/-- The mantissa without its last places, rounded to the nearest. -/
def nearest (m places : Nat) : Nat :=
  (ExtendedMantissa.ofMantissaAndAccuracy m .exact >>> places).roundedMantissa

theorem nearest_zero_places (m : Nat) : nearest m 0 = m := rfl

theorem nearest_mono {m m' : Nat} (h : m ≤ m') (places : Nat) :
    nearest m places ≤ nearest m' places := by
  refine roundedMantissa_mono ?_
  induction places with
  | zero =>
    show 4 * m + 0 + 0 ≤ 4 * m' + 0 + 0
    omega
  | succ k ih =>
    have hstep : ∀ em : ExtendedMantissa, em >>> (k + 1) = (em >>> k).shiftRightOne := fun _ => rfl
    rw [hstep, hstep, quarters_shiftRightOne, quarters_shiftRightOne]
    omega

/-- Rounding takes the mantissa that is left or the next one. -/
theorem nearest_bounds (m places : Nat) :
    m / 2 ^ places ≤ nearest m places ∧ nearest m places ≤ m / 2 ^ places + 1 := by
  have hquarters : m / 2 ^ places =
      quarters (ExtendedMantissa.ofMantissaAndAccuracy m .exact >>> places) / 4 := by
    rw [quarters_div, mantissa_shiftRight]
    rfl
  rw [hquarters, nearest, roundedMantissa_eq]
  omega

/-- Zeros behind a mantissa are taken off without a trace. -/
theorem nearest_shifted (m j places : Nat) :
    nearest (m * 2 ^ j) (j + places) = nearest m places := by
  rw [nearest, shiftRight_add, shiftRight_exact, nearest]

/-! ## Magnitudes -/

/-- How many places rounding takes off a mantissa. -/
def excess (spec : Format) (m : Nat) (e : Int) : Nat :=
  (spec.targetExponent (totalExponent m e) - e).toNat

/-- What `m * 2 ^ e` is rounded to, unless that is too large for the format. -/
def rounding (spec : Format) (m : Nat) (e : Int) : ℚ :=
  nearest m (excess spec m e) * 2 ^ (e + excess spec m e)

theorem targetExponent_eq (spec : Format) (m : Nat) (e : Int) :
    spec.targetExponent (totalExponent m e) =
      max (m.log2 + 1 + e - spec.mantissaBits) spec.minExponent := rfl

theorem magnitude_pos {m : Nat} (hm : 0 < m) (e : Int) : (0 : ℚ) < m * 2 ^ e :=
  mul_pos (Nat.cast_pos.mpr hm) (zpow_pos two_pos e)

theorem scaled_eq (x : ℚ) (k : Nat) (e : Int) : x * 2 ^ k * 2 ^ e = x * 2 ^ (e + k) := by
  rw [mul_assoc, mul_comm ((2 : ℚ) ^ k), zpow_add₀ two_ne_zero, zpow_natCast]

/-- Rounding depends on the magnitude alone. -/
theorem rounding_shifted {m : Nat} (hm : 0 < m) (e : Int) (k : Nat) :
    rounding spec (m * 2 ^ k) (e - k) = rounding spec m e := by
  rw [rounding, rounding, excess, excess, totalExponent_shifted hm]
  generalize spec.targetExponent (totalExponent m e) = target
  rcases le_or_gt e target with hle | hlt
  · have hplaces : (target - (e - k)).toNat = k + (target - e).toNat := by omega
    rw [hplaces, nearest_shifted]
    congr 2
    omega
  · -- Rounding takes off some of the zeros and nothing else.
    obtain ⟨j, hj⟩ : ∃ j, (target - (e - k)).toNat = j := ⟨_, rfl⟩
    have hnone : (target - e).toNat = 0 := by omega
    have hjk : k = (k - j) + j := by omega
    have hzeros : m * 2 ^ k = m * 2 ^ (k - j) * 2 ^ j := by
      rw [Nat.mul_assoc, ← Nat.pow_add, ← hjk]
    have hshift : nearest (m * 2 ^ (k - j) * 2 ^ j) j = m * 2 ^ (k - j) :=
      nearest_shifted (m * 2 ^ (k - j)) j 0
    rw [hj, hnone, hzeros, hshift, nearest_zero_places]
    push_cast
    rw [scaled_eq]
    congr 2
    omega

theorem nearest_excess_le {m : Nat} (hm : 0 < m) (e : Int) :
    nearest m (excess spec m e) ≤ 2 ^ spec.mantissaBits := by
  have htarget := targetExponent_eq spec m e
  have hlength : m.log2 < spec.mantissaBits + excess spec m e := by
    rw [excess]
    omega
  have hm' := (Nat.log2_lt (Nat.ne_of_gt hm)).mp hlength
  obtain ⟨-, hle⟩ := nearest_bounds m (excess spec m e)
  refine hle.trans (Nat.succ_le_of_lt ?_)
  rwa [Nat.div_lt_iff_lt_mul (Nat.two_pow_pos _), ← Nat.pow_add]

/-- Above the least exponent, rounding leaves a mantissa of full length. -/
theorem le_nearest_excess {m : Nat} {e : Int} (hm : 0 < m)
    (he : e ≤ spec.targetExponent (totalExponent m e))
    (hfull : spec.minExponent < spec.targetExponent (totalExponent m e)) :
    2 ^ spec.mantissaBitsWithoutImplicit ≤ nearest m (excess spec m e) := by
  have hbits : spec.mantissaBits = 1 + spec.mantissaBitsWithoutImplicit := rfl
  have htarget := targetExponent_eq spec m e
  obtain ⟨hle, -⟩ := nearest_bounds m (excess spec m e)
  refine le_trans ?_ hle
  rw [Nat.le_div_iff_mul_le (Nat.two_pow_pos _), ← Nat.pow_add,
    ← Nat.le_log2 (Nat.ne_of_gt hm), excess]
  omega

theorem rounding_nonneg (m : Nat) (e : Int) : 0 ≤ rounding spec m e :=
  mul_nonneg (Nat.cast_nonneg _) (zpow_pos two_pos _).le

/-- Rounding keeps the leading bit of a mantissa whose exponent is in range. -/
theorem rounding_pos {m : Nat} {e : Int} (hm : 0 < m) (he : spec.minExponent ≤ e) :
    0 < rounding spec m e := by
  refine magnitude_pos ?_ _
  by_cases hlow : e < spec.targetExponent (totalExponent m e)
  · exact Nat.lt_of_lt_of_le (Nat.two_pow_pos _)
      (le_nearest_excess hm hlow.le (Int.lt_of_le_of_lt he hlow))
  · have hnone : excess spec m e = 0 := by
      rw [excess]
      omega
    rwa [hnone, nearest_zero_places]

theorem rounding_mono_of_le {m m' : Nat} {e : Int} (hm : 0 < m) (h : m ≤ m')
    (he : e ≤ spec.minExponent) : rounding spec m e ≤ rounding spec m' e := by
  have hm' : 0 < m' := Nat.lt_of_lt_of_le hm h
  have hbits : spec.mantissaBits = 1 + spec.mantissaBitsWithoutImplicit := rfl
  have hlog : m.log2 ≤ m'.log2 := (Nat.le_log2 (Nat.ne_of_gt hm')).mpr
    ((Nat.log2_self_le (Nat.ne_of_gt hm)).trans h)
  have htarget := targetExponent_eq spec m e
  have htarget' := targetExponent_eq spec m' e
  rcases Int.lt_or_eq_of_le (show spec.targetExponent (totalExponent m e) ≤
    spec.targetExponent (totalExponent m' e) by omega) with hlt | heq
  · -- A power of two lies between the two, since their exponents differ.
    have hlow : (nearest m (excess spec m e) : ℚ) ≤ 2 ^ spec.mantissaBits := by
      exact_mod_cast nearest_excess_le hm e
    have hhigh : (2 ^ spec.mantissaBitsWithoutImplicit : ℚ) ≤ nearest m' (excess spec m' e) := by
      exact_mod_cast le_nearest_excess hm' (by omega) (by omega)
    have hpos : ∀ k : Int, (0 : ℚ) ≤ 2 ^ k := fun k => (zpow_pos two_pos k).le
    calc rounding spec m e
        ≤ 2 ^ spec.mantissaBits * 2 ^ (e + excess spec m e) :=
          mul_le_mul_of_nonneg_right hlow (hpos _)
      _ = 2 ^ (spec.mantissaBits + (e + excess spec m e)) := by
          rw [zpow_add₀ two_ne_zero (spec.mantissaBits : ℤ), zpow_natCast]
      _ ≤ 2 ^ (spec.mantissaBitsWithoutImplicit + (e + excess spec m' e)) := by
          refine zpow_le_zpow_right₀ one_le_two ?_
          rw [excess, excess]
          omega
      _ = 2 ^ spec.mantissaBitsWithoutImplicit * 2 ^ (e + excess spec m' e) := by
          rw [zpow_add₀ two_ne_zero (spec.mantissaBitsWithoutImplicit : ℤ), zpow_natCast]
      _ ≤ rounding spec m' e := mul_le_mul_of_nonneg_right hhigh (hpos _)
  · have hexcess : excess spec m e = excess spec m' e := by rw [excess, excess, heq]
    rw [rounding, rounding, hexcess]
    refine mul_le_mul_of_nonneg_right ?_ (zpow_pos two_pos _).le
    exact_mod_cast nearest_mono h _

/-- Of two magnitudes, the larger one is not rounded to less. -/
theorem rounding_mono {m m' : Nat} {e e' : Int} (hm : 0 < m) (hm' : 0 < m')
    (h : (m : ℚ) * 2 ^ e ≤ m' * 2 ^ e') : rounding spec m e ≤ rounding spec m' e' := by
  -- Zeros behind the mantissas give both one exponent, which is low enough for rounding to count.
  obtain ⟨low, hlow⟩ : ∃ low, min (min e e') spec.minExponent = low := ⟨_, rfl⟩
  obtain ⟨k, hk⟩ : ∃ k : Nat, e - k = low := ⟨(e - low).toNat, by omega⟩
  obtain ⟨k', hk'⟩ : ∃ k' : Nat, e' - k' = low := ⟨(e' - low).toNat, by omega⟩
  rw [← rounding_shifted hm e k, ← rounding_shifted hm' e' k', hk, hk']
  refine rounding_mono_of_le (Nat.mul_pos hm (Nat.two_pow_pos k)) ?_ (by omega)
  have he : e = low + k := by omega
  have he' : e' = low + k' := by omega
  rw [he, he', ← scaled_eq, ← scaled_eq] at h
  exact_mod_cast le_of_mul_le_mul_right h (zpow_pos two_pos low)

/-! ## Rounded floats -/

/-- The mantissa is as long as the exponent allows, which is the one that the format asks for. -/
def Canonical (spec : Format) : UnpackedFloat → Prop
  | .finite _ m e _ => spec.targetExponent (totalExponent m e) = e
  | _ => True

theorem canonical_unpack (b : BitVec spec.numBits) : Canonical spec (unpack spec b) := by
  cases h : unpack spec b with
  | finite s m e hm => exact targetExponent_of_unpack h
  | _ => trivial

/-- The exact value of a float that is not infinite. -/
def value : UnpackedFloat → ℚ
  | .finite s m e _ => s.apply m * 2 ^ e
  | _ => 0

theorem abs_value_finite (s : Sign) {m : Nat} (e : Int) (hm : 0 < m) :
    |value (.finite s m e hm)| = (m : ℚ) * 2 ^ e := by
  have hscale : |(2 : ℚ) ^ e| = 2 ^ e := abs_of_pos (zpow_pos two_pos e)
  cases s <;> simp [value, Sign.apply, abs_mul, hscale]

/-- The second shift of a rounding changes nothing but the form of what the first one leaves. -/
theorem carry_canonical (spec : Format) {m : Nat} {e : Int} (hm : 0 < m)
    (hle : m ≤ 2 ^ spec.mantissaBits) (he : spec.minExponent ≤ e)
    (hfull : spec.minExponent < e → 2 ^ spec.mantissaBitsWithoutImplicit ≤ m) :
    ∃ M E, 0 < M ∧ (shiftToTargetExponent spec m e .exact).1.mantissa = M ∧
      (shiftToTargetExponent spec m e .exact).2 = E ∧
      spec.targetExponent (totalExponent M E) = E ∧ (M : ℚ) * 2 ^ E = m * 2 ^ e := by
  have hbits : spec.mantissaBits = 1 + spec.mantissaBitsWithoutImplicit := rfl
  have htarget := targetExponent_eq spec m e
  rw [shiftToTargetExponent, mantissa_shiftToExponent, shiftToExponent]
  rcases Nat.lt_or_eq_of_le hle with hlt | rfl
  · have hlength := (Nat.log2_lt (Nat.ne_of_gt hm)).mpr hlt
    have hstay : spec.targetExponent (totalExponent m e) = e := by
      rcases Int.lt_or_eq_of_le he with hlt' | heq
      · have := (Nat.le_log2 (Nat.ne_of_gt hm)).mpr (hfull hlt')
        omega
      · omega
    refine ⟨m, e, hm, ?_, ?_, hstay, rfl⟩ <;> simp [hstay]
  · rw [Nat.log2_two_pow] at htarget
    have hcarry :
        (spec.targetExponent (totalExponent (2 ^ spec.mantissaBits) e) - e).toNat = 1 := by
      omega
    have hhalf : 2 ^ spec.mantissaBits / 2 ^ 1 = 2 ^ spec.mantissaBitsWithoutImplicit := by
      rw [hbits, Nat.pow_add]
      exact Nat.mul_div_cancel_left _ (by decide)
    rw [hcarry]
    refine ⟨2 ^ spec.mantissaBitsWithoutImplicit, e + 1, Nat.two_pow_pos _, hhalf, rfl, ?_, ?_⟩
    · rw [targetExponent_eq, Nat.log2_two_pow]
      omega
    · push_cast
      rw [hbits, pow_add, zpow_add₀ two_ne_zero]
      ring

/-- A magnitude is rounded to a float of the value that it is rounded to. -/
theorem round_value (spec : Format) (s : Sign) {m : Nat} (hm : 0 < m) (e : Int) :
    Canonical spec (UnpackedFloat.round spec s m e) ∧ (UnpackedFloat.round spec s m e).isFinite ∧
      value (UnpackedFloat.round spec s m e) = s.apply 1 * rounding spec m e := by
  -- What is rounded has a mantissa with enough zeros, so there is nothing but places to take off.
  obtain ⟨a, ha⟩ : ∃ a, (e - spec.targetExponent (totalExponent m e)).toNat = a := ⟨_, rfl⟩
  have hround : UnpackedFloat.round spec s m e =
      roundWithAccuracy spec s (m * 2 ^ a) (e - a) .exact := by
    rw [UnpackedFloat.round, decreaseExponent, ha, Nat.shiftLeft_eq]
  have hlow : e - a ≤ spec.targetExponent (totalExponent (m * 2 ^ a) (e - a)) := by
    rw [totalExponent_shifted hm]
    omega
  rw [hround, ← rounding_shifted hm e a]
  generalize m * 2 ^ a = n, e - a = f, Nat.mul_pos hm (Nat.two_pow_pos a) = hn at *
  have hexponent : f + excess spec n f = spec.targetExponent (totalExponent n f) := by
    rw [excess]
    omega
  have hround' : roundWithAccuracy spec s n f .exact =
      if h : (shiftToTargetExponent spec (nearest n (excess spec n f))
        (f + excess spec n f) .exact).1.mantissa = 0 then .zero s
      else .finite s _ (shiftToTargetExponent spec (nearest n (excess spec n f))
        (f + excess spec n f) .exact).2 (Nat.pos_of_ne_zero h) := rfl
  rcases Nat.eq_zero_or_pos (nearest n (excess spec n f)) with hzero | hpos
  · have hnone : (shiftToTargetExponent spec 0 (f + excess spec n f) .exact).1.mantissa = 0 := by
      rw [shiftToTargetExponent, mantissa_shiftToExponent, Nat.zero_div]
    rw [hround', hzero, dif_pos hnone, rounding, hzero, Nat.cast_zero, zero_mul, mul_zero]
    exact ⟨trivial, rfl, rfl⟩
  · have hmin : spec.minExponent ≤ spec.targetExponent (totalExponent n f) := Int.le_max_right _ _
    obtain ⟨M, E, hM, hmantissa, hE, hcanonical, hvalue⟩ := carry_canonical spec hpos
      (nearest_excess_le hn f) (hexponent ▸ hmin)
      (fun hlt => le_nearest_excess hn hlow (hexponent ▸ hlt))
    have hne : (shiftToTargetExponent spec (nearest n (excess spec n f))
        (f + excess spec n f) .exact).1.mantissa ≠ 0 := by
      rw [hmantissa]
      exact Nat.ne_of_gt hM
    rw [hround', dif_neg hne, rounding, ← hvalue]
    simp only [hmantissa, hE]
    refine ⟨hcanonical, rfl, ?_⟩
    cases s <;> simp [value, Sign.apply]

/-! ## Packed floats -/

/-- The least exponent that a format has no room for. -/
def overflowExponent (spec : Format) : Int :=
  2 ^ (spec.exponentBits - 1) - spec.mantissaBitsWithoutImplicit

/-- A float whose exponent is too large is infinite. -/
def capped (spec : Format) : UnpackedFloat → UnpackedFloat
  | .finite s m e h => if e < overflowExponent spec then .finite s m e h else .infinity s
  | a => a

/-- What is left of a float once it is packed. -/
def settle (spec : Format) (a : UnpackedFloat) : UnpackedFloat := unpack spec (pack spec a)

theorem unpack_packedInfinity (s : Sign) :
    unpack spec (packedInfinity spec s) = .infinity s := by
  simp [unpack, packedInfinity]

/-- The exponent field of a subnormal float is not that of an infinity. -/
theorem zeros_ne_ones : (0#_ : BitVec spec.exponentBits) ≠ -1#_ := by
  simp [Nat.ne_of_gt spec.he]

theorem unpack_normal {s : Sign} {m biased : Nat} (hm : 0 < m)
    (hlength : m.log2 = spec.mantissaBitsWithoutImplicit) (hlow : 0 < biased)
    (hhigh : biased + 1 < 2 ^ spec.exponentBits) :
    unpack spec (packComponents spec s (BitVec.ofNat _ biased) (BitVec.ofNat _ m)) =
      .finite s m (biased - (spec.exponentBias + spec.mantissaBitsWithoutImplicit)) hm := by
  obtain ⟨hle, hlt⟩ := (Nat.log2_eq_iff (Nat.ne_of_gt hm)).mp hlength
  have hexponent : (BitVec.ofNat spec.exponentBits biased).toNat = biased := by
    rw [BitVec.toNat_ofNat, Nat.mod_eq_of_lt (by omega)]
  have hzero : BitVec.ofNat spec.exponentBits biased ≠ 0#_ := by
    intro h
    rw [← BitVec.toNat_inj, hexponent, BitVec.toNat_ofNat, Nat.zero_mod] at h
    omega
  have hones : BitVec.ofNat spec.exponentBits biased ≠ -1#_ := by
    intro h
    rw [← BitVec.toNat_inj, hexponent, BitVec.neg_one_eq_allOnes, BitVec.toNat_allOnes] at h
    omega
  have hmantissa : (1#1 ++ BitVec.ofNat spec.mantissaBitsWithoutImplicit m).toNat = m := by
    rw [toNat_implicit, BitVec.toNat_ofNat]
    rw [Nat.pow_succ] at hlt
    rw [Nat.mod_eq_sub_mod hle, Nat.mod_eq_of_lt (by omega)]
    omega
  simp only [unpack, unpackExponent_packComponents, unpackMantissa_packComponents,
    unpackSign_packComponents, Sign.ofBitVec_toBitVec, if_neg hzero, if_neg hones, hexponent,
    hmantissa]

theorem unpack_subnormal {s : Sign} {m : Nat} (hm : 0 < m)
    (hlength : m.log2 < spec.mantissaBitsWithoutImplicit) :
    unpack spec (packComponents spec s 0#_ (BitVec.ofNat _ m)) =
      .finite s m (1 - (spec.exponentBias + spec.mantissaBitsWithoutImplicit)) hm := by
  have hlt := (Nat.log2_lt (Nat.ne_of_gt hm)).mp hlength
  have hmantissa : (BitVec.ofNat spec.mantissaBitsWithoutImplicit m).toNat = m := by
    rw [BitVec.toNat_ofNat, Nat.mod_eq_of_lt hlt]
  have hzero : BitVec.ofNat spec.mantissaBitsWithoutImplicit m ≠ 0#_ := by
    intro h
    rw [← BitVec.toNat_inj, hmantissa, BitVec.toNat_ofNat, Nat.zero_mod] at h
    omega
  simp only [unpack, unpackExponent_packComponents, unpackMantissa_packComponents,
    unpackSign_packComponents, Sign.ofBitVec_toBitVec, if_neg zeros_ne_ones, if_true, dif_neg hzero,
    hmantissa, BitVec.toNat_ofNat, Nat.zero_mod]
  congr 1
  omega

/-- Packing keeps a float, unless its exponent is too large. -/
theorem settle_eq_capped {a : UnpackedFloat} (ha : Canonical spec a) :
    settle spec a = capped spec a := by
  rcases a with s | _ | s | ⟨s, m, e, h⟩
  · exact unpack_packedInfinity s
  · exact unpack_packedNaN
  · exact unpack_packedZero
  have hbits : spec.mantissaBits = 1 + spec.mantissaBitsWithoutImplicit := rfl
  have hmin : spec.minExponent = 3 - 2 ^ (spec.exponentBits - 1) - spec.mantissaBits := rfl
  have hover : overflowExponent spec =
    2 ^ (spec.exponentBits - 1) - spec.mantissaBitsWithoutImplicit := rfl
  have hbias : (spec.exponentBias : Int) = 2 ^ (spec.exponentBits - 1) - 1 := by
    rw [Format.exponentBias, Int.ofNat_sub Nat.one_le_two_pow]
    simp
  have htop : ((2 ^ spec.exponentBits : Nat) : Int) = 2 * 2 ^ (spec.exponentBits - 1) := by
    have hpos := spec.he
    rw [Int.natCast_pow, ← pow_succ']
    congr 1
    omega
  rw [Canonical, targetExponent_eq] at ha
  obtain ⟨biased, hbiased⟩ : ∃ biased,
    (e + spec.exponentBias + spec.mantissaBitsWithoutImplicit).toNat = biased := ⟨_, rfl⟩
  have hroom : 2 ^ spec.exponentBits ≤ biased + 1 ↔ ¬ e < overflowExponent spec := by omega
  simp only [settle, pack, capped, hbiased]
  by_cases hsmall : e < overflowExponent spec
  · rw [if_neg (mt hroom.mp (not_not.mpr hsmall)), if_pos hsmall]
    by_cases hnormal : m.log2 + 1 = spec.mantissaBits
    · rw [if_pos hnormal, unpack_normal h (by omega) (by omega) (by omega)]
      congr 1
      omega
    · rw [if_neg hnormal, unpack_subnormal h (by omega)]
      congr 1
      omega
  · rw [if_pos (hroom.mpr hsmall), if_neg hsmall]
    exact unpack_packedInfinity s

/-! ## Floats compare as their values do -/

section Magnitudes

variable {m m' : Nat} {e e' : Int}

theorem magnitude_lt_of_exponent (hm' : 0 < m')
    (h : spec.targetExponent (totalExponent m e) = e)
    (h' : spec.targetExponent (totalExponent m' e') = e') (hlt : e < e') :
    (m : ℚ) * 2 ^ e < m' * 2 ^ e' := by
  rw [targetExponent_eq] at h h'
  have hbelow : (m : ℚ) < 2 ^ (m.log2 + 1) := by exact_mod_cast Nat.lt_log2_self
  have habove : (2 ^ m'.log2 : ℚ) ≤ m' := by
    exact_mod_cast Nat.log2_self_le (Nat.ne_of_gt hm')
  calc (m : ℚ) * 2 ^ e
      < 2 ^ (m.log2 + 1) * 2 ^ e := mul_lt_mul_of_pos_right hbelow (zpow_pos two_pos e)
    _ = 2 ^ ((m.log2 + 1 : Nat) + e) := by
        rw [zpow_add₀ two_ne_zero, zpow_natCast]
    _ ≤ 2 ^ (m'.log2 + e') := by
        refine zpow_le_zpow_right₀ one_le_two ?_
        omega
    _ = 2 ^ m'.log2 * 2 ^ e' := by
        rw [zpow_add₀ two_ne_zero, zpow_natCast]
    _ ≤ m' * 2 ^ e' := mul_le_mul_of_nonneg_right habove (zpow_pos two_pos e').le

/-- Canonical magnitudes compare by their exponents first, and then by their mantissas. -/
theorem magnitude_le_iff (hm : 0 < m) (hm' : 0 < m')
    (h : spec.targetExponent (totalExponent m e) = e)
    (h' : spec.targetExponent (totalExponent m' e') = e') :
    (m : ℚ) * 2 ^ e ≤ m' * 2 ^ e' ↔ e < e' ∨ e = e' ∧ m ≤ m' := by
  rcases lt_trichotomy e e' with hlt | rfl | hgt
  · simp [hlt, (magnitude_lt_of_exponent hm' h h' hlt).le]
  · simp [mul_le_mul_iff_left₀ (zpow_pos (two_pos (α := ℚ)) e)]
  · simp [hgt.ne', not_lt.mpr hgt.le, not_le.mpr (magnitude_lt_of_exponent hm h' h hgt)]

end Magnitudes

/-- Finite floats of one format compare as their values do. -/
theorem unpacked_le_iff_value {a b : UnpackedFloat} (ha : Canonical spec a) (hb : Canonical spec b)
    (hfa : a.isFinite) (hfb : b.isFinite) : a.le b ↔ value a ≤ value b := by
  rw [unpacked_le_iff]
  rcases a with _ | _ | _ | ⟨_ | _, m, e, hm⟩ <;> try cases hfa
  all_goals rcases b with _ | _ | _ | ⟨_ | _, m', e', hm'⟩ <;> try cases hfb
  all_goals simp [standing?, value, Sign.apply, Prod.Lex.toLex_le_toLex]
  · exact magnitude_pos hm' e'
  · exact (magnitude_pos hm' e').le
  · exact (magnitude_pos hm e).le
  · rw [magnitude_le_iff hm' hm hb ha, @eq_comm _ e]
  · exact (neg_neg_of_pos (magnitude_pos hm e)).le.trans (magnitude_pos hm' e').le
  · exact magnitude_pos hm e
  · exact (neg_neg_of_pos (magnitude_pos hm' e')).trans (magnitude_pos hm e)
  · rw [magnitude_le_iff hm hm' ha hb]

/-- Capping keeps a float, or makes an infinity of one whose exponent is too large. -/
theorem capped_cases (spec : Format) (a : UnpackedFloat) : capped spec a = a ∨
    ∃ s m e hm, a = .finite s m e hm ∧ overflowExponent spec ≤ e ∧ capped spec a = .infinity s := by
  rcases a with _ | _ | _ | ⟨s, m, e, hm⟩
  case finite =>
    rw [capped]
    split
    · exact .inl rfl
    next hlarge => exact .inr ⟨s, m, e, hm, rfl, not_lt.mp hlarge, rfl⟩
  all_goals exact .inl rfl

theorem infinity_le {a b : UnpackedFloat} (h : a.le b) :
    (UnpackedFloat.infinity .negative).le b := by
  rcases a with (_ | _) | _ | _ | ⟨_ | _, _, _, _⟩ <;>
    rcases b with (_ | _) | _ | _ | ⟨_ | _, _, _, _⟩ <;> first | rfl | cases h

theorem le_infinity {a b : UnpackedFloat} (h : a.le b) : a.le (.infinity .positive) := by
  rcases a with (_ | _) | _ | _ | ⟨_ | _, _, _, _⟩ <;>
    rcases b with (_ | _) | _ | _ | ⟨_ | _, _, _, _⟩ <;> first | rfl | cases h

theorem exponent_le {s : Sign} {m m' : Nat} {e e' : Int} {hm : 0 < m} {hm' : 0 < m'}
    (h : (UnpackedFloat.finite s m e hm).le (.finite s m' e' hm')) :
    match s with
    | .positive => e ≤ e'
    | .negative => e' ≤ e := by
  rw [unpacked_le_iff] at h
  obtain ⟨_, _, hi, hj, h⟩ := h
  cases s <;> cases hi <;> cases hj <;> simp [Prod.Lex.toLex_le_toLex] at h ⊢ <;> omega

/-- Floats keep their order where those with too large an exponent become infinite. -/
theorem capped_mono {a b : UnpackedFloat} (h : a.le b) : (capped spec a).le (capped spec b) := by
  have hfinite : ∀ {s m e hm}, capped spec (.finite s m e hm) = .finite s m e hm →
      e < overflowExponent spec := by
    intro s m e hm hkept
    rw [capped] at hkept
    split at hkept
    next hsmall => exact hsmall
    · cases hkept
  rcases capped_cases spec a with ha | ⟨s, m, e, hm, rfl, he, ha⟩ <;>
    rcases capped_cases spec b with hb | ⟨s', m', e', hm', rfl, he', hb⟩ <;> rw [ha, hb]
  · exact h
  · match s', a, h with
    | .positive, _, h => exact le_infinity h
    | .negative, .infinity .negative, _ => rfl
    | .negative, .finite .negative m e hm, h =>
      exact absurd (hfinite ha) (not_lt.mpr (he'.trans (exponent_le h)))
  · match s, b, h with
    | .negative, _, h => exact infinity_le h
    | .positive, .infinity .positive, _ => rfl
    | .positive, .finite .positive m' e' hm', h =>
      exact absurd (hfinite hb) (not_lt.mpr (he.trans (exponent_le h)))
  · match s, s', h with
    | .negative, .negative, _ | .negative, .positive, _ | .positive, .positive, _ => rfl

/-! ## Rounded numbers -/

theorem normalize_apply (s : Sign) {m : Nat} (hm : 0 < m) (e : Int) (z : Sign) :
    UnpackedFloat.normalize spec (s.apply m) e z = UnpackedFloat.round spec s m e := by
  cases s with
  | positive =>
    rw [UnpackedFloat.normalize, Sign.apply, Int.compare_eq_gt.mpr (by omega), Int.toNat_natCast]
  | negative =>
    rw [UnpackedFloat.normalize, Sign.apply, Int.compare_eq_lt.mpr (by omega), Int.neg_neg,
      Int.toNat_natCast]

/-- The float is what a number is rounded to. -/
def Rounds (spec : Format) (q : ℚ) (a : UnpackedFloat) : Prop :=
  ∃ (n e : Int) (z : Sign), (n : ℚ) * 2 ^ e = q ∧ a = UnpackedFloat.normalize spec n e z

namespace Rounds

variable {q q' : ℚ} {a a' : UnpackedFloat}

/-- A number is rounded by its magnitude and keeps its sign. -/
theorem cases (h : Rounds spec q a) : Canonical spec a ∧ a.isFinite ∧
    ((∃ (m : Nat) (e : Int), 0 < m ∧ (m : ℚ) * 2 ^ e = -q ∧ value a = -rounding spec m e) ∨
      (q = 0 ∧ value a = 0) ∨
      ∃ (m : Nat) (e : Int), 0 < m ∧ (m : ℚ) * 2 ^ e = q ∧ value a = rounding spec m e) := by
  obtain ⟨n, e, z, rfl, rfl⟩ := h
  rw [UnpackedFloat.normalize]
  rcases lt_trichotomy n 0 with hn | rfl | hn
  · have hm : 0 < (-n).toNat := by omega
    have hcast : ((-n).toNat : ℚ) = -n := by exact_mod_cast Int.toNat_of_nonneg (by omega)
    obtain ⟨hcanonical, hfinite, hvalue⟩ := round_value spec .negative hm e
    rw [Int.compare_eq_lt.mpr hn]
    refine ⟨hcanonical, hfinite, .inl ⟨_, e, hm, by rw [hcast, neg_mul], ?_⟩⟩
    simpa [Sign.apply] using hvalue
  · exact ⟨trivial, rfl, .inr (.inl ⟨by simp, rfl⟩)⟩
  · have hm : 0 < n.toNat := by omega
    have hcast : (n.toNat : ℚ) = n := by exact_mod_cast Int.toNat_of_nonneg (by omega)
    obtain ⟨hcanonical, hfinite, hvalue⟩ := round_value spec .positive hm e
    rw [Int.compare_eq_gt.mpr hn]
    refine ⟨hcanonical, hfinite, .inr (.inr ⟨_, e, hm, by rw [hcast], ?_⟩)⟩
    simpa [Sign.apply] using hvalue

/-- Of two numbers, the larger one is not rounded to less. -/
theorem value_le (h : Rounds spec q a) (h' : Rounds spec q' a') (hq : q ≤ q') :
    value a ≤ value a' := by
  obtain ⟨-, -, h⟩ := h.cases
  obtain ⟨-, -, h'⟩ := h'.cases
  have hsign : ∀ (m : Nat) (e : Int), 0 < m → (0 : ℚ) < m * 2 ^ e ∧ 0 ≤ rounding spec m e :=
    fun m e hm => ⟨magnitude_pos hm e, rounding_nonneg m e⟩
  rcases h with ⟨m, e, hm, hv, ha⟩ | ⟨hv, ha⟩ | ⟨m, e, hm, hv, ha⟩ <;>
    rcases h' with ⟨m', e', hm', hv', ha'⟩ | ⟨hv', ha'⟩ | ⟨m', e', hm', hv', ha'⟩ <;>
    rw [ha, ha']
  · exact neg_le_neg (rounding_mono hm' hm (by linarith))
  · linarith [hsign m e hm]
  · linarith [hsign m e hm, hsign m' e' hm']
  · linarith [hsign m' e' hm']
  · linarith [hsign m' e' hm']
  · linarith [hsign m e hm, hsign m' e' hm']
  · linarith [hsign m e hm]
  · exact rounding_mono hm hm' (by linarith)

/-- Nor is it packed as less. -/
theorem mono (h : Rounds spec q a) (h' : Rounds spec q' a') (hq : q ≤ q') :
    (settle spec a).le (settle spec a') := by
  obtain ⟨hcanonical, hfinite, -⟩ := h.cases
  obtain ⟨hcanonical', hfinite', -⟩ := h'.cases
  rw [settle_eq_capped hcanonical, settle_eq_capped hcanonical']
  exact capped_mono ((unpacked_le_iff_value hcanonical hcanonical' hfinite hfinite').mpr
    (h.value_le h' hq))

end Rounds

end Espalier
