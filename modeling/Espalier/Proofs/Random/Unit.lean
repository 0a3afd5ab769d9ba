import Espalier.Proofs.Random.Nonzero
import Espalier.Proofs.Scalar.Single
import Espalier.Random.Draw

/-!
# Unit floats

A unit float is a word, cut down to as many bits as a mantissa has, over two to the power of that
many bits. The bits fit, so the conversion rounds nothing, and the division only lowers the
exponent. The largest unit float is therefore one place below one, which makes sure that a decision
of probability one is always true.

Results:
1. `ofNat_eq_finite`, `div_two_pow`: conversion and division, for any format.
2. `unitSingle_exact`, `unitDouble_exact`: the values of unit floats.
3. `chance_iff`, `chance_of_nonpos`, `chance_of_one_le`: decisions.
-/

namespace Espalier

open Float.Model (Format UnpackedFloat totalExponent)
open Float.Model.UnpackedFloat

variable {spec : Format}

/-! ## Fractions of a power of two -/

/-- A count that fits a mantissa is shifted to its full length and not rounded. -/
theorem ofNat_eq_finite {n : Nat} (hn : 0 < n) (hlt : n < 2 ^ spec.mantissaBits)
    (hmin : spec.minExponent + spec.mantissaBits ≤ 0) :
    ∃ (k : Nat) (hm : 0 < n * 2 ^ k), (n * 2 ^ k).log2 = spec.mantissaBitsWithoutImplicit ∧
      k ≤ spec.mantissaBitsWithoutImplicit ∧
      UnpackedFloat.ofNat spec n = .finite .positive (n * 2 ^ k) (-k) hm := by
  have hbits : spec.mantissaBits = 1 + spec.mantissaBitsWithoutImplicit := rfl
  have hlog := (Nat.log2_lt (Nat.ne_of_gt hn)).mpr hlt
  obtain ⟨k, hk⟩ : ∃ k, n.log2 + k = spec.mantissaBitsWithoutImplicit :=
    ⟨spec.mantissaBitsWithoutImplicit - n.log2, by omega⟩
  have hm : 0 < n * 2 ^ k := Nat.mul_pos hn (Nat.two_pow_pos k)
  have htotal : totalExponent (n * 2 ^ k) (-k) = totalExponent n 0 := by
    rw [← totalExponent_shifted hn 0 k, Int.zero_sub]
  have hlength : (n * 2 ^ k).log2 = spec.mantissaBitsWithoutImplicit := by
    rw [totalExponent, totalExponent] at htotal
    omega
  have htarget := targetExponent_eq spec n 0
  have hshift : (0 - spec.targetExponent (totalExponent n 0)).toNat = k := by omega
  have hcanonical : spec.targetExponent (totalExponent (n * 2 ^ k) (-k)) = -k := by
    rw [htotal]
    omega
  refine ⟨k, hm, hlength, by omega, ?_⟩
  have hround := round_shifted (s := .positive) hm hcanonical 0
  rw [Nat.pow_zero, Nat.mul_one, Nat.cast_zero, Int.sub_zero] at hround
  rw [UnpackedFloat.ofNat, UnpackedFloat.ofInt]
  refine (@normalize_apply spec .positive n hn 0 .positive).trans ?_
  rw [UnpackedFloat.round, decreaseExponent, hshift, Nat.shiftLeft_eq, Int.zero_sub]
  exact hround

/-- Dividing by a power of two lowers the exponent, if there is room. -/
theorem div_two_pow {s : Sign} {m : Nat} {e e' : Int} (hm : 0 < m)
    (hlength : m.log2 = spec.mantissaBitsWithoutImplicit)
    (hroom : spec.minExponent + spec.mantissaBits ≤ e - e') :
    div spec (.finite s m e hm)
        (.finite .positive (2 ^ spec.mantissaBitsWithoutImplicit) e' (Nat.two_pow_pos _)) =
      .finite s m (e - e' - spec.mantissaBitsWithoutImplicit) hm := by
  obtain ⟨k, hk⟩ : ∃ k, spec.mantissaBitsWithoutImplicit = k := ⟨_, rfl⟩
  have hbits : spec.mantissaBits = 1 + k := by rw [← hk]; rfl
  rw [hk] at hlength ⊢
  have htarget : min (e - e') (spec.targetExponent
      (totalExponent m e - totalExponent (2 ^ k) e')) = e - e' - (k + 1 : Nat) := by
    rw [totalExponent, totalExponent, hlength, Nat.log2_two_pow, Format.targetExponent]
    omega
  have hshift : (e - e' - (e - e' - (k + 1 : Nat))).toNat = k + 1 := by omega
  have hquotient : m <<< (k + 1) = 2 ^ k * (m * 2 ^ 1) := by
    rw [Nat.shiftLeft_eq, Nat.pow_succ]
    ring
  have hcanonical : spec.targetExponent (totalExponent m (e - e' - k)) = e - e' - k := by
    rw [totalExponent, hlength, Format.targetExponent]
    omega
  have hround := round_shifted (s := s) hm hcanonical 1
  have hsign : s / .positive = s := by cases s <;> rfl
  have hlast : e - e' - (k + 1 : Nat) = e - e' - k - (1 : Nat) := by omega
  simp only [div, divCore, htarget, hshift, hquotient, hsign,
    Nat.mul_div_cancel_left _ (Nat.two_pow_pos k), Nat.mul_mod_right]
  rw [hlast]
  exact hround

/-- A count that fits a mantissa, over the least count that does not, is a float. -/
theorem settle_fraction {n : Nat} (hlt : n < 2 ^ spec.mantissaBits)
    (hmin : spec.minExponent + 2 * spec.mantissaBits ≤ 0) (hmax : 0 < overflowExponent spec) :
    let u := settle spec (div spec (settle spec (UnpackedFloat.ofNat spec n))
      (.finite .positive (2 ^ spec.mantissaBitsWithoutImplicit) 1 (Nat.two_pow_pos _)))
    u.isFinite ∧ value u = n / 2 ^ spec.mantissaBits := by
  have hbits : spec.mantissaBits = 1 + spec.mantissaBitsWithoutImplicit := rfl
  rcases Nat.eq_zero_or_pos n with rfl | hn
  · have hzero : settle spec (UnpackedFloat.ofNat spec 0) = .zero .positive := unpack_packedZero
    have hquotient : settle spec (div spec (.zero .positive)
        (.finite .positive (2 ^ spec.mantissaBitsWithoutImplicit) 1 (Nat.two_pow_pos _))) =
          .zero .positive := unpack_packedZero
    dsimp only
    rw [hzero, hquotient]
    exact ⟨rfl, by simp [value]⟩
  · obtain ⟨k, hm, hlength, hk, hcount⟩ := ofNat_eq_finite hn hlt (by omega)
    have hkeep : ∀ {e : Int}, spec.minExponent ≤ e → e ≤ 0 →
        settle spec (.finite .positive (n * 2 ^ k) e hm) = .finite .positive (n * 2 ^ k) e hm := by
      intro e he hle
      have hcanonical : Canonical spec (.finite .positive (n * 2 ^ k) e hm) := by
        rw [Canonical, targetExponent_eq]
        omega
      rw [settle_eq_capped hcanonical, capped, if_pos (by omega)]
    dsimp only
    rw [hcount, hkeep (by omega) (by omega), div_two_pow hm hlength (by omega),
      hkeep (by omega) (by omega)]
    refine ⟨rfl, ?_⟩
    have hexponent : (-k - 1 - spec.mantissaBitsWithoutImplicit : Int) =
        -spec.mantissaBits - k := by omega
    rw [hexponent, value, Sign.apply, zpow_sub₀ two_ne_zero, zpow_neg, zpow_natCast, zpow_natCast]
    push_cast
    field_simp

/-! ## Doubles by their exact values -/

/-- The exact value of a double that is finite. -/
def doubleValue (x : Float) : ℚ := value x.toModel.unpack

theorem double_canonical (x : Float) : Canonical .binary64 x.toModel.unpack :=
  @canonical_unpack .binary64 x.toBits.toBitVec

theorem double_lt_iff_value {x y : Float} (hx : x.isFinite) (hy : y.isFinite) :
    x < y ↔ doubleValue x < doubleValue y :=
  double_lt_iff_unpacked.trans
    (unpacked_lt_iff_value (double_canonical x) (double_canonical y) hx hy)

theorem double_le_iff_value {x y : Float} (hx : x.isFinite) (hy : y.isFinite) :
    x ≤ y ↔ doubleValue x ≤ doubleValue y :=
  double_le_iff_unpacked.trans
    (unpacked_le_iff_value (double_canonical x) (double_canonical y) hx hy)

theorem doubleValue_zero : doubleValue 0 = 0 := rfl

theorem doubleValue_one : doubleValue 1 = 1 := by
  have hone : (1 : Float).toModel.unpack = .finite .positive (2 ^ 52) (-52) (by decide) := rfl
  norm_num [doubleValue, hone, value, Sign.apply]

namespace Stream

variable {s : Stream} {p : Float}

/-! ## Draws -/

theorem toNat_shiftRight_lt (w : UInt64) {k : UInt64} (hk : k.toNat < 64) :
    (w >>> k).toNat < 2 ^ (64 - k.toNat) := by
  have hsplit : 2 ^ (64 - k.toNat) * 2 ^ k.toNat = 2 ^ 64 := by
    rw [← Nat.pow_add, Nat.sub_add_cancel hk.le]
  rw [UInt64.toNat_shiftRight, Nat.mod_eq_of_lt hk, Nat.shiftRight_eq_div_pow,
    Nat.div_lt_iff_lt_mul (Nat.two_pow_pos _), hsplit]
  exact w.toNat_lt

/-- The upper 24 bits of the word, over `2^24`. -/
theorem unitSingle_exact (s : Stream) : s.unitSingle.isFinite ∧
    singleValue s.unitSingle = ((s.output >>> 40).toNat : ℚ) / 2 ^ 24 :=
  @settle_fraction .binary32 _ (toNat_shiftRight_lt s.output (by decide)) (by decide)
    (by decide)

/-- The upper 53 bits of the word, over `2^53`. -/
theorem unitDouble_exact (s : Stream) : s.unitDouble.isFinite ∧
    doubleValue s.unitDouble = ((s.output >>> 11).toNat : ℚ) / 2 ^ 53 :=
  @settle_fraction .binary64 _ (toNat_shiftRight_lt s.output (by decide)) (by decide)
    (by decide)

/-- The largest unit single is one place below one. -/
theorem unitSingle_bounds (s : Stream) :
    0 ≤ singleValue s.unitSingle ∧ singleValue s.unitSingle ≤ 1 - 1 / 2 ^ 24 := by
  have hlt : (s.output >>> 40).toNat + 1 ≤ 2 ^ 24 :=
    toNat_shiftRight_lt s.output (k := 40) (by decide)
  have hcast : ((s.output >>> 40).toNat : ℚ) + 1 ≤ 2 ^ 24 := by exact_mod_cast hlt
  rw [(unitSingle_exact s).2]
  exact ⟨by positivity, by linarith⟩

/-- The largest unit double is one place below one. -/
theorem unitDouble_bounds (s : Stream) :
    0 ≤ doubleValue s.unitDouble ∧ doubleValue s.unitDouble ≤ 1 - 1 / 2 ^ 53 := by
  have hlt : (s.output >>> 11).toNat + 1 ≤ 2 ^ 53 :=
    toNat_shiftRight_lt s.output (k := 11) (by decide)
  have hcast : ((s.output >>> 11).toNat : ℚ) + 1 ≤ 2 ^ 53 := by exact_mod_cast hlt
  rw [(unitDouble_exact s).2]
  exact ⟨by positivity, by linarith⟩

theorem unitDouble_in_unit (s : Stream) : 0 ≤ s.unitDouble ∧ s.unitDouble < 1 := by
  obtain ⟨hlow, hhigh⟩ := unitDouble_bounds s
  rw [double_le_iff_value rfl (unitDouble_exact s).1,
    double_lt_iff_value (unitDouble_exact s).1 rfl, doubleValue_zero, doubleValue_one]
  exact ⟨hlow, hhigh.trans_lt (by norm_num)⟩

theorem unitSingle_in_unit (s : Stream) : 0 ≤ s.unitSingle ∧ s.unitSingle < 1 := by
  obtain ⟨hlow, hhigh⟩ := unitSingle_bounds s
  rw [single_le_iff_value rfl (unitSingle_exact s).1,
    single_lt_iff_value (unitSingle_exact s).1 rfl, singleValue_zero, singleValue_one]
  exact ⟨hlow, hhigh.trans_lt (by norm_num)⟩

/-! ## Decisions -/

theorem chance_eq_true_iff : s.chance p = true ↔ s.unitDouble < p := decide_eq_true_iff

theorem chance_of_nonpos (h : p ≤ 0 ∨ p.isNaN) : s.chance p = false := by
  rw [← Bool.not_eq_true, chance_eq_true_iff]
  intro hless
  rcases h with h | h
  · have hpos : 0 < p := double_lt_of_le_of_lt (unitDouble_in_unit s).1 hless
    exact double_lt_irrefl p (double_lt_of_le_of_lt h hpos)
  · rw [(double_number_of_lt hless).2] at h
    cases h

theorem chance_of_one_le (h : 1 ≤ p) : s.chance p = true := by
  have hnumber : p.isNaN = false := (unpacked_number_of_le (double_le_iff_unpacked.mp h)).2
  refine chance_eq_true_iff.mpr (double_lt_of_lt_of_not_lt hnumber (unitDouble_in_unit s).2 ?_)
  exact fun hless => double_lt_irrefl 1 (double_lt_of_le_of_lt h hless)

/-- Between zero and one, a probability decides by how many bits it leaves below it. -/
theorem chance_iff (hlow : 0 ≤ p) (hhigh : p ≤ 1) :
    s.chance p = true ↔ ((s.output >>> 11).toNat : ℚ) < doubleValue p * 2 ^ 53 := by
  have hp : p.isFinite := double_finite_of_between (x := 0) (y := 1) rfl rfl hlow hhigh
  rw [chance_eq_true_iff, double_lt_iff_value (unitDouble_exact s).1 hp, (unitDouble_exact s).2,
    div_lt_iff₀ (by positivity)]

end Stream

end Espalier
