import Espalier.Proofs.Scalar.Arithmetic

/-!
# How far rounding goes

Rounding takes the nearest float, so it moves a number by half the distance between neighbouring
floats at most, and not at all if the number has room in the format. A number between two finite
floats is rounded to one that lies between them too, so nothing overflows there.

Results:
1. `two_mul_nearest_le`, `le_two_mul_nearest`: rounding goes half a place at most.
2. `Rounds.abs_sub_le`, `Rounds.value_eq`: what this means for a number, and for one that fits.
3. `Rounds.settle_between`: what lies between two floats stays there.
4. `add_rounds`: a sum is what the exact sum is rounded to.
-/

namespace Espalier

open Float.Model (Format UnpackedFloat totalExponent)
open Float.Model.UnpackedFloat

variable {spec : Format} {q : ℚ} {a : UnpackedFloat}

/-! ## Half a place -/

/-- An even number of quarters is what is left of a mantissa exactly, and an odd one stands for
anything between its two neighbours. -/
theorem quarters_bounds (m places : Nat) :
    let q := quarters (ExtendedMantissa.ofMantissaAndAccuracy m .exact >>> places)
    2 ^ places * (q / 2) ≤ 2 * m ∧ 2 * m ≤ 2 ^ places * ((q + 1) / 2) := by
  induction places with
  | zero =>
    have hquarters : quarters (ExtendedMantissa.ofMantissaAndAccuracy m .exact >>> 0) = 4 * m := rfl
    dsimp only
    rw [hquarters]
    omega
  | succ k ih =>
    have hstep : ExtendedMantissa.ofMantissaAndAccuracy m .exact >>> (k + 1) =
        (ExtendedMantissa.ofMantissaAndAccuracy m .exact >>> k).shiftRightOne := rfl
    rw [hstep, quarters_shiftRightOne]
    generalize quarters (ExtendedMantissa.ofMantissaAndAccuracy m .exact >>> k) = q at ih ⊢
    dsimp only at ih ⊢
    rw [Nat.pow_succ, Nat.mul_assoc, Nat.mul_assoc]
    exact ⟨(Nat.mul_le_mul_left _ (by omega)).trans ih.1,
      ih.2.trans (Nat.mul_le_mul_left _ (by omega))⟩

theorem two_mul_nearest_le (m places : Nat) :
    2 ^ places * (2 * nearest m places) ≤ 2 * m + 2 ^ places := by
  obtain ⟨hlow, -⟩ := quarters_bounds m places
  rw [nearest, roundedMantissa_eq]
  generalize quarters (ExtendedMantissa.ofMantissaAndAccuracy m .exact >>> places) = q at hlow ⊢
  calc 2 ^ places * (2 * ((q + 1 + q / 4 % 2) / 4))
      ≤ 2 ^ places * (q / 2 + 1) := Nat.mul_le_mul_left _ (by omega)
    _ ≤ 2 * m + 2 ^ places := by
        rw [Nat.mul_add, Nat.mul_one]
        exact Nat.add_le_add_right hlow _

theorem le_two_mul_nearest (m places : Nat) :
    2 * m ≤ 2 ^ places * (2 * nearest m places) + 2 ^ places := by
  obtain ⟨-, hhigh⟩ := quarters_bounds m places
  rw [nearest, roundedMantissa_eq]
  generalize quarters (ExtendedMantissa.ofMantissaAndAccuracy m .exact >>> places) = q at hhigh ⊢
  calc 2 * m ≤ 2 ^ places * ((q + 1) / 2) := hhigh
    _ ≤ 2 ^ places * (2 * ((q + 1 + q / 4 % 2) / 4) + 1) := Nat.mul_le_mul_left _ (by omega)
    _ = 2 ^ places * (2 * ((q + 1 + q / 4 % 2) / 4)) + 2 ^ places := by
        rw [Nat.mul_add, Nat.mul_one]

/-! ## Magnitudes -/

theorem rounding_congr {m m' : Nat} {e e' : Int} (hm : 0 < m) (hm' : 0 < m')
    (h : (m : ℚ) * 2 ^ e = m' * 2 ^ e') : rounding spec m e = rounding spec m' e' :=
  le_antisymm (rounding_mono hm hm' h.le) (rounding_mono hm' hm h.ge)

/-- Nothing is rounded that has room in the format. -/
theorem rounding_of_fits {m : Nat} {e : Int} (hm : m < 2 ^ spec.mantissaBits)
    (he : spec.minExponent ≤ e) : rounding spec m e = m * 2 ^ e := by
  have hlength : m.log2 < spec.mantissaBits := by
    rcases Nat.eq_zero_or_pos m with rfl | hpos
    · exact Nat.add_pos_left Nat.one_pos _
    · exact (Nat.log2_lt (Nat.ne_of_gt hpos)).mpr hm
  have hnone : excess spec m e = 0 := by
    have htarget := targetExponent_eq spec m e
    rw [excess]
    omega
  rw [rounding, hnone, nearest_zero_places, Nat.cast_zero, add_zero]

theorem exponent_lt_of_magnitude_lt {m : Nat} {e b : Int} (hm : 0 < m)
    (h : (m : ℚ) * 2 ^ e < 2 ^ b) : m.log2 + e < b := by
  have hlead : (2 ^ m.log2 : ℚ) ≤ m := by exact_mod_cast Nat.log2_self_le (Nat.ne_of_gt hm)
  refine (zpow_lt_zpow_iff_right₀ (one_lt_two (α := ℚ))).mp (lt_of_le_of_lt ?_ h)
  rw [zpow_add₀ two_ne_zero, zpow_natCast]
  exact mul_le_mul_of_nonneg_right hlead (zpow_pos two_pos e).le

/-- Below a power of two, rounding goes half as far as the floats right below it are apart. -/
theorem abs_rounding_sub_le {m : Nat} {e b : Int} (hm : 0 < m) (h : (m : ℚ) * 2 ^ e < 2 ^ b)
    (hb : spec.minExponent + spec.mantissaBits ≤ b) :
    |rounding spec m e - m * 2 ^ e| ≤ 2 ^ (b - spec.mantissaBits - 1) := by
  have htarget := targetExponent_eq spec m e
  have hlength := exponent_lt_of_magnitude_lt hm h
  obtain ⟨k, hk⟩ : ∃ k, excess spec m e = k := ⟨_, rfl⟩
  rw [rounding, hk]
  rcases Nat.eq_zero_or_pos k with rfl | hpos
  · rw [nearest_zero_places, Nat.cast_zero, add_zero, sub_self, abs_zero]
    exact (zpow_pos two_pos _).le
  have hbound : e + k ≤ b - spec.mantissaBits := by
    rw [excess] at hk
    omega
  have hnearest : |(nearest m k : ℚ) * 2 ^ k - m| ≤ 2 ^ k / 2 := by
    have hlow : (2 ^ k * (2 * nearest m k) : ℚ) ≤ 2 * m + 2 ^ k := by
      exact_mod_cast two_mul_nearest_le m k
    have hhigh : (2 * m : ℚ) ≤ 2 ^ k * (2 * nearest m k) + 2 ^ k := by
      exact_mod_cast le_two_mul_nearest m k
    rw [abs_le]
    constructor <;> linarith
  have hpow : (2 : ℚ) ^ (e + k - 1) = 2 ^ k / 2 * 2 ^ e := by
    rw [zpow_sub_one₀ two_ne_zero, zpow_add₀ two_ne_zero, zpow_natCast]
    ring
  calc |(nearest m k : ℚ) * 2 ^ (e + k) - m * 2 ^ e|
      = |(nearest m k : ℚ) * 2 ^ k - m| * 2 ^ e := by
        rw [← scaled_eq, ← sub_mul, abs_mul, abs_of_pos (zpow_pos (two_pos (α := ℚ)) e)]
    _ ≤ 2 ^ k / 2 * 2 ^ e := mul_le_mul_of_nonneg_right hnearest (zpow_pos two_pos e).le
    _ = 2 ^ (e + k - 1) := hpow.symm
    _ ≤ 2 ^ (b - spec.mantissaBits - 1) := zpow_le_zpow_right₀ one_le_two (by omega)

theorem value_negative {m : Nat} (e : Int) (hm : 0 < m) : value (.finite .negative m e hm) < 0 := by
  have hpos := magnitude_pos hm e
  simp only [value, Sign.apply]
  push_cast
  linarith

/-- A float is a multiple of the least positive one. -/
theorem value_multiple (ha : Canonical spec a) : ∃ n : ℤ, value a = n * 2 ^ spec.minExponent := by
  cases a with
  | finite s m e hm =>
    have htarget := targetExponent_eq spec m e
    obtain ⟨k, hk⟩ : ∃ k : Nat, e = spec.minExponent + k := by
      rw [Canonical] at ha
      exact ⟨(e - spec.minExponent).toNat, by omega⟩
    refine ⟨s.apply m * 2 ^ k, ?_⟩
    rw [value, hk, zpow_add₀ two_ne_zero, zpow_natCast]
    push_cast
    ring
  | _ => exact ⟨0, by simp [value]⟩

/-! ## Rounded numbers -/

namespace Rounds

/-- What is below a power of two in magnitude is moved by at most half the distance of the floats
right below that power. -/
theorem abs_sub_le (h : Rounds spec q a) {b : Int} (hq : |q| < 2 ^ b)
    (hb : spec.minExponent + spec.mantissaBits ≤ b) :
    |value a - q| ≤ 2 ^ (b - spec.mantissaBits - 1) := by
  obtain ⟨-, -, ⟨m, e, hm, hv, ha⟩ | ⟨hv, ha⟩ | ⟨m, e, hm, hv, ha⟩⟩ := h.cases
  · have hlt : (m : ℚ) * 2 ^ e < 2 ^ b := hv ▸ (neg_le_abs q).trans_lt hq
    have hmove := abs_rounding_sub_le hm hlt hb
    rwa [hv, sub_neg_eq_add, ← abs_neg, neg_add, ← sub_eq_add_neg, ← ha] at hmove
  · rw [ha, hv, sub_self, abs_zero]
    exact (zpow_pos two_pos _).le
  · have hlt : (m : ℚ) * 2 ^ e < 2 ^ b := hv ▸ (le_abs_self q).trans_lt hq
    have hmove := abs_rounding_sub_le hm hlt hb
    rwa [hv, ← ha] at hmove

/-- What has room in the format is not rounded. -/
theorem value_eq {n e : Int} (h : Rounds spec (n * 2 ^ e) a)
    (hn : n.natAbs < 2 ^ spec.mantissaBits) (he : spec.minExponent ≤ e) : value a = n * 2 ^ e := by
  have hfits := rounding_of_fits hn he
  have hscale : (0 : ℚ) < 2 ^ e := zpow_pos two_pos e
  obtain ⟨-, -, ⟨m, e', hm, hv, ha⟩ | ⟨hv, ha⟩ | ⟨m, e', hm, hv, ha⟩⟩ := h.cases
  · have hneg : n < 0 := by
      have := magnitude_pos hm e'
      rw [hv, ← neg_mul, mul_pos_iff_of_pos_right hscale] at this
      exact_mod_cast neg_pos.mp this
    have habs : ((n.natAbs : Nat) : ℚ) = -n := by
      rw [Nat.cast_natAbs, abs_of_neg hneg, Int.cast_neg]
    have hsame : (m : ℚ) * 2 ^ e' = n.natAbs * 2 ^ e := by rw [hv, habs, neg_mul]
    rw [ha, rounding_congr hm (by omega) hsame, hfits, habs, neg_mul, neg_neg]
  · rw [ha, hv]
  · have hpos : 0 < n := by
      have := magnitude_pos hm e'
      rw [hv, mul_pos_iff_of_pos_right hscale] at this
      exact_mod_cast this
    have habs : ((n.natAbs : Nat) : ℚ) = n := by
      rw [Nat.cast_natAbs, abs_of_pos hpos]
    have hsame : (m : ℚ) * 2 ^ e' = n.natAbs * 2 ^ e := by rw [hv, habs]
    rw [ha, rounding_congr hm (by omega) hsame, hfits, habs]

/-- Between two finite floats nothing overflows. -/
theorem settle_between (h : Rounds spec q a) {x y : UnpackedFloat} (hx : Canonical spec x)
    (hy : Canonical spec y) (hfx : x.isFinite) (hfy : y.isFinite) (hsx : settle spec x = x)
    (hsy : settle spec y = y) (hlow : value x ≤ q) (hhigh : q ≤ value y) :
    settle spec a = a := by
  have hle := (rounds_self hx hfx).mono h hlow
  have hge := h.mono (rounds_self hy hfy) hhigh
  rw [settle_eq_capped h.cases.1] at *
  rw [hsx] at hle
  rw [hsy] at hge
  rcases capped_cases spec a with hkept | ⟨s, -, -, -, -, -, hinfinite⟩
  · exact hkept
  · rw [hinfinite] at hle hge
    cases unpacked_finite_of_between hfx hfy hle hge

end Rounds

/-- Finite floats are below each other as their values are. -/
theorem unpacked_lt_iff_value {b : UnpackedFloat} (ha : Canonical spec a) (hb : Canonical spec b)
    (hfa : a.isFinite) (hfb : b.isFinite) : a.lt b ↔ value a < value b := by
  have hnumber : ∀ {c : UnpackedFloat}, c.isFinite → c.isNaN = false := by
    rintro (_ | _ | _ | _) hc <;> first | rfl | cases hc
  obtain ⟨i, hi⟩ := exists_standing (hnumber hfa)
  obtain ⟨j, hj⟩ := exists_standing (hnumber hfb)
  have hle : b.le a ↔ j ≤ i := by simp [unpacked_le_iff, hi, hj]
  have hlt : a.lt b ↔ i < j := by simp [unpacked_lt_iff, hi, hj]
  rw [hlt, ← not_le, ← hle, unpacked_le_iff_value hb ha hfb hfa, not_le]

/-! ## Sums -/

theorem canonical_neg (ha : Canonical spec a) : Canonical spec a.neg := by
  cases a <;> exact ha

theorem value_neg (a : UnpackedFloat) : value a.neg = -value a := by
  cases a with
  | finite s m e hm => simp [UnpackedFloat.neg, value, apply_neg]
  | _ => exact neg_zero.symm

/-- A sum is the difference from the opposite float, also of infinities and zeros. -/
theorem add_eq_sub_neg (a b : UnpackedFloat) : add spec a b = sub spec a b.neg := by
  rcases a with (_ | _) | _ | (_ | _) | ⟨_, _, _, _⟩ <;>
    rcases b with (_ | _) | _ | (_ | _) | ⟨_ | _, _, _, _⟩ <;>
    first | rfl | simp [add, sub, UnpackedFloat.neg, Sign.apply]

theorem add_rounds {b : UnpackedFloat} (ha : Canonical spec a) (hb : Canonical spec b)
    (hfa : a.isFinite) (hfb : b.isFinite) : Rounds spec (value a + value b) (add spec a b) := by
  have hfinite : b.neg.isFinite := by cases b <;> exact hfb
  have hsub := sub_rounds ha (canonical_neg hb) hfa hfinite
  rwa [value_neg, sub_neg_eq_add, ← add_eq_sub_neg] at hsub

end Espalier
