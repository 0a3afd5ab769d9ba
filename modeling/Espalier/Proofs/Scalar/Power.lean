import Espalier.Proofs.Scalar.Single

/-!
# Singles and powers of two

Powers of two down to the least positive single are floats, so rounding does not cross them. With a
power of two on each side of a result, the magnitude of a rounded result is known up to a factor,
without a bound on the error. Less than half of the least positive single, there is nothing but zero.

Results:
1. `single_finite_cases`, `singleValue_range`: zeros and magnitudes, and the powers of two that
   positive singles are between.
2. `RoundsTo.le_two_zpow`, `RoundsTo.two_zpow_le`, `RoundsTo.two_zpow_le_abs`: rounding does not cross
   a power of two.
3. `RoundsTo.eq_zero_of_small`, `Vanishes`: what is rounded to zero.
-/

namespace Espalier

open Float.Model (Format totalExponent)
open Float.Model.UnpackedFloat

variable {x y : Float32} {q : ℚ}

/-! ## The range of the format -/

/-- A finite single is a zero, or a magnitude with a sign. -/
theorem single_finite_cases (hx : x.isFinite) :
    (∃ s, x.toModel.unpack = .zero s ∧ singleValue x = 0) ∨
    (∃ m e hm, x.toModel.unpack = .finite .negative m e hm ∧ singleValue x < 0) ∨
    ∃ m e hm, x.toModel.unpack = .finite .positive m e hm ∧ 0 < singleValue x ∧
      singleValue x = m * 2 ^ e := by
  have hfinite : x.toModel.unpack.isFinite := hx
  rw [singleValue]
  generalize x.toModel.unpack = a at hfinite
  rcases a with _ | _ | s | ⟨_ | _, m, e, hm⟩
  · cases hfinite
  · cases hfinite
  · exact .inl ⟨s, rfl, rfl⟩
  · exact .inr (.inl ⟨m, e, hm, rfl, value_negative e hm⟩)
  · have hvalue : value (.finite .positive m e hm) = m * 2 ^ e := by simp [value, Sign.apply]
    exact .inr (.inr ⟨m, e, hm, rfl, hvalue ▸ magnitude_pos hm e, hvalue⟩)

/-- A positive single as a magnitude, whose places are in the range of the format. -/
theorem exists_magnitude (hx : x.isFinite) (hpos : 0 < singleValue x) :
    ∃ m e hm, x.toModel.unpack = .finite .positive m e hm ∧ singleValue x = m * 2 ^ e ∧
      -149 ≤ e ∧ totalExponent m e ≤ 128 := by
  rcases single_finite_cases hx with ⟨-, -, hzero⟩ | ⟨-, -, -, -, hneg⟩ | ⟨m, e, hm, h, -, hvalue⟩
  · exact absurd hzero hpos.ne'
  · exact absurd hneg hpos.not_gt
  refine ⟨m, e, hm, h, hvalue, ?_⟩
  have hcanonical := single_canonical x
  have hkept := single_settled x
  rw [h] at hcanonical hkept
  rw [settle_eq_capped hcanonical, capped] at hkept
  have hroom : e < overflowExponent .binary32 := by
    by_contra hover
    rw [if_neg hover] at hkept
    cases hkept
  have hover : overflowExponent .binary32 = 105 := rfl
  have hmin : Format.binary32.minExponent = -149 := rfl
  have hbits : Format.binary32.mantissaBits = 24 := rfl
  rw [Canonical, targetExponent_eq] at hcanonical
  rw [totalExponent]
  omega

theorem exists_negative (hx : x.isFinite) (hneg : singleValue x < 0) :
    ∃ m e hm, x.toModel.unpack = .finite .negative m e hm := by
  rcases single_finite_cases hx with ⟨-, -, hzero⟩ | ⟨m, e, hm, h, -⟩ | ⟨-, -, -, -, hpos, -⟩
  · exact absurd hzero hneg.ne
  · exact ⟨m, e, hm, h⟩
  · exact absurd hpos hneg.not_gt

theorem singleValue_range (hx : x.isFinite) (hpos : 0 < singleValue x) :
    2 ^ (-149 : ℤ) ≤ singleValue x ∧ singleValue x < 2 ^ (128 : ℤ) := by
  obtain ⟨m, e, hm, -, hvalue, hlow, hhigh⟩ := exists_magnitude hx hpos
  rw [totalExponent] at hhigh
  rw [hvalue]
  constructor
  · have hone : (1 : ℚ) ≤ m := by exact_mod_cast hm
    exact (zpow_le_zpow_right₀ one_le_two hlow).trans
      (le_mul_of_one_le_left (zpow_pos two_pos e).le hone)
  · have hlength : (m : ℚ) < 2 ^ ((m.log2 + 1 : Nat) : ℤ) := by
      rw [zpow_natCast]
      exact_mod_cast Nat.lt_log2_self
    calc (m : ℚ) * 2 ^ e < 2 ^ ((m.log2 + 1 : Nat) : ℤ) * 2 ^ e :=
          mul_lt_mul_of_pos_right hlength (zpow_pos two_pos e)
      _ = 2 ^ (((m.log2 + 1 : Nat) : ℤ) + e) := (zpow_add₀ two_ne_zero _ _).symm
      _ ≤ 2 ^ (128 : ℤ) := zpow_le_zpow_right₀ one_le_two (by omega)

/-! ## Rounding -/

namespace RoundsTo

/-- A power of two, of either sign, is rounded to itself in a float whose exponent has no upper
bound. -/
theorem exists_power {b n : Int} (hb : -149 ≤ b) (hn : n.natAbs = 1) :
    ∃ a, Rounds .binary32 (n * 2 ^ b) a ∧ value a = n * 2 ^ b := by
  have hrounds : Rounds .binary32 (n * 2 ^ b) _ := ⟨n, b, .positive, rfl, rfl⟩
  exact ⟨_, hrounds, hrounds.value_eq (hn.trans_lt (by decide)) hb⟩

/-- Rounding does not cross a power of two of the format. -/
theorem le_power (h : RoundsTo q x) (hx : x.isFinite) {b n : Int} (hb : -149 ≤ b)
    (hn : n.natAbs = 1) (hq : q ≤ n * 2 ^ b) : singleValue x ≤ n * 2 ^ b := by
  obtain ⟨a, ha, hvalue⟩ := exists_power hb hn
  exact hvalue ▸ (h.rounds hx).value_le ha hq

theorem power_le (h : RoundsTo q x) (hx : x.isFinite) {b n : Int} (hb : -149 ≤ b)
    (hn : n.natAbs = 1) (hq : n * 2 ^ b ≤ q) : n * 2 ^ b ≤ singleValue x := by
  obtain ⟨a, ha, hvalue⟩ := exists_power hb hn
  exact hvalue ▸ ha.value_le (h.rounds hx) hq

theorem le_two_zpow (h : RoundsTo q x) (hx : x.isFinite) {b : Int} (hb : -149 ≤ b)
    (hq : q ≤ 2 ^ b) : singleValue x ≤ 2 ^ b := by
  simpa using h.le_power hx hb (n := 1) rfl (by simpa using hq)

theorem two_zpow_le (h : RoundsTo q x) (hx : x.isFinite) {b : Int} (hb : -149 ≤ b)
    (hq : 2 ^ b ≤ q) : 2 ^ b ≤ singleValue x := by
  simpa using h.power_le hx hb (n := 1) rfl (by simpa using hq)

theorem two_zpow_le_abs (h : RoundsTo q x) (hx : x.isFinite) {b : Int} (hb : -149 ≤ b)
    (hq : 2 ^ b ≤ |q|) : 2 ^ b ≤ |singleValue x| := by
  rcases le_abs.mp hq with hpos | hneg
  · exact le_abs.mpr (.inl (h.two_zpow_le hx hb hpos))
  · have hmirror := h.le_power hx hb (n := -1) rfl (by simpa using le_neg_of_le_neg hneg)
    exact le_abs.mpr (.inr (le_neg_of_le_neg (by simpa using hmirror)))

/-- What is less than half of the least positive single is rounded to zero. -/
theorem eq_zero_of_small (h : RoundsTo q x) (hx : x.isFinite) (hlow : 0 ≤ q)
    (hq : q < 2 ^ (-150 : ℤ)) : singleValue x = 0 := by
  have hnonneg := h.nonneg hlow hx
  have hsmall : |q| < 2 ^ (-125 : ℤ) := by
    rw [abs_of_nonneg hlow]
    exact hq.trans (zpow_lt_zpow_right₀ one_lt_two (by decide))
  have hmove : |singleValue x - q| ≤ 2 ^ (-150 : ℤ) := h.abs_sub_le hx hsmall le_rfl
  have hless : singleValue x < 2 ^ (-149 : ℤ) := by
    have hsum : (2 : ℚ) ^ (-149 : ℤ) = 2 ^ (-150 : ℤ) + 2 ^ (-150 : ℤ) := by norm_num
    have := (abs_le.mp hmove).2
    linarith
  obtain ⟨n, hn⟩ := singleValue_multiple x
  have hplace : (0 : ℚ) < 2 ^ (-149 : ℤ) := zpow_pos two_pos _
  rw [hn] at hnonneg hless ⊢
  have hn0 : n = 0 := by
    have hone : (n : ℚ) < 1 := by
      by_contra hge
      exact hless.not_ge (le_mul_of_one_le_left hplace.le (not_lt.mp hge))
    have hzero : (0 : ℚ) ≤ n := nonneg_of_mul_nonneg_left hnonneg hplace
    have hint : n < 1 := by exact_mod_cast hone
    have hint' : 0 ≤ n := by exact_mod_cast hzero
    omega
  rw [hn0, Int.cast_zero, zero_mul]

end RoundsTo

/-! ## Zeros -/

/-- The single is a zero, of either sign. -/
def Vanishes (x : Float32) : Prop := x.isFinite ∧ singleValue x = 0

theorem vanishes_iff : Vanishes x ↔ x = 0 ∨ x = -0 := by
  constructor
  · rintro ⟨hfinite, hvalue⟩
    rw [← single_pack_unpack x]
    rcases single_finite_cases hfinite with ⟨s, h, -⟩ | ⟨-, -, -, -, hneg⟩ | ⟨-, -, -, -, hpos, -⟩
    · rw [h]
      cases s with
      | positive => exact .inl rfl
      | negative => exact .inr rfl
    · exact absurd hvalue hneg.ne
    · exact absurd hvalue hpos.ne'
  · rintro (rfl | rfl) <;> exact ⟨rfl, rfl⟩

theorem RoundsTo.vanishes (h : RoundsTo 0 x) : Vanishes x := by
  have hfinite := (h.bounded (b := 0) (by simp) (by decide)).1
  exact ⟨hfinite, h.eq_zero_of_small hfinite le_rfl (zpow_pos two_pos _)⟩

/-- Numbers that are rounded alike have no difference. -/
theorem RoundsTo.sub_vanishes (hx : RoundsTo q x) (hy : RoundsTo q y) (hfx : x.isFinite)
    (hfy : y.isFinite) : Vanishes (x - y) := by
  have hvalue : singleValue x = singleValue y :=
    le_antisymm ((single_le_iff_value hfx hfy).mp (hx.le hy le_rfl))
      ((single_le_iff_value hfy hfx).mp (hy.le hx le_rfl))
  have hrounds := single_sub_roundsTo hfx hfy
  rw [hvalue, sub_self] at hrounds
  exact hrounds.vanishes

namespace Vanishes

theorem mul_left (h : Vanishes x) (hy : y.isFinite) : Vanishes (y * x) := by
  have hrounds := single_mul_roundsTo hy h.1
  rw [h.2, mul_zero] at hrounds
  exact hrounds.vanishes

theorem mul_right (h : Vanishes x) (hy : y.isFinite) : Vanishes (x * y) := by
  have hrounds := single_mul_roundsTo h.1 hy
  rw [h.2, zero_mul] at hrounds
  exact hrounds.vanishes

theorem neg (h : Vanishes x) : Vanishes (-x) := by
  rcases vanishes_iff.mp h with rfl | rfl <;> exact ⟨rfl, rfl⟩

theorem add_value (hx : x.isFinite) (hy : Vanishes y) :
    (x + y).isFinite ∧ singleValue (x + y) = singleValue x := by
  have hrounds := single_add_roundsTo hx hy.1
  rw [hy.2, add_zero] at hrounds
  obtain ⟨hfinite, hlow, hhigh⟩ := hrounds.between hx hx le_rfl le_rfl
  exact ⟨hfinite, le_antisymm hhigh hlow⟩

theorem sub_value (hx : x.isFinite) (hy : Vanishes y) :
    (x - y).isFinite ∧ singleValue (x - y) = singleValue x := by
  have hrounds := single_sub_roundsTo hx hy.1
  rw [hy.2, sub_zero] at hrounds
  obtain ⟨hfinite, hlow, hhigh⟩ := hrounds.between hx hx le_rfl le_rfl
  exact ⟨hfinite, le_antisymm hhigh hlow⟩

theorem add (hx : Vanishes x) (hy : Vanishes y) : Vanishes (x + y) := by
  obtain ⟨hfinite, hvalue⟩ := hy.add_value hx.1
  exact ⟨hfinite, hvalue.trans hx.2⟩

theorem sub (hx : Vanishes x) (hy : Vanishes y) : Vanishes (x - y) := by
  obtain ⟨hfinite, hvalue⟩ := hy.sub_value hx.1
  exact ⟨hfinite, hvalue.trans hx.2⟩

end Vanishes

end Espalier
