import Espalier.Proofs.Scalar.Spacing

/-!
# Singles by their exact values

The finite singles compare as their exact values do, and a sum, a difference or a product of them is
the single that the exact result is rounded to. So what a computation on singles comes to is found
in the rational numbers: `RoundsTo` says which single a number is rounded to, and the laws of
rounding are stated of it.

Results:
1. `single_le_iff_value`, `single_lt_iff_value`: the order of finite singles.
2. `single_add_roundsTo` and its kin: the operations.
3. `RoundsTo.le`, `RoundsTo.between`, `RoundsTo.abs_sub_le`: what rounding keeps and
   how far it goes.
4. `RoundsTo.shrunk_le`: a rounded difference, scaled down, is no more than the difference was.
5. `Bounded.mul` and its kin: magnitudes.
-/

namespace Espalier

open Float.Model (Format UnpackedFloat totalExponent)
open Float.Model.UnpackedFloat

variable {x y z : Float32} {q q' : ℚ}

/-- The exact value of a single that is finite. -/
def singleValue (x : Float32) : ℚ := value x.toModel.unpack

theorem singleValue_zero : singleValue 0 = 0 := rfl

theorem singleValue_one : singleValue 1 = 1 := by
  have hone : (1 : Float32).toModel.unpack = .finite .positive (2 ^ 23) (-23) (by decide) := rfl
  norm_num [singleValue, hone, value, Sign.apply]

theorem single_canonical (x : Float32) : Canonical .binary32 x.toModel.unpack :=
  @canonical_unpack .binary32 x.toBits.toBitVec

/-- Packing a single changes nothing. -/
theorem single_settled (x : Float32) : settle .binary32 x.toModel.unpack = x.toModel.unpack :=
  congrArg (unpack .binary32) (pack_unpack_of_valid x.toModel.valid)

/-- A single is a multiple of the least positive one. -/
theorem singleValue_multiple (x : Float32) : ∃ n : ℤ, singleValue x = n * 2 ^ (-149 : ℤ) :=
  value_multiple (single_canonical x)

theorem single_number_of_finite (hx : x.isFinite) : x.isNaN = false := by
  have hunpack : x.toModel.unpack.isFinite := hx
  show x.toModel.unpack.isNaN = false
  cases h : x.toModel.unpack with
  | notANumber => rw [h] at hunpack; cases hunpack
  | _ => rfl

/-! ## Order -/

theorem single_le_iff_value (hx : x.isFinite) (hy : y.isFinite) :
    x ≤ y ↔ singleValue x ≤ singleValue y :=
  single_le_iff_unpacked.trans
    (unpacked_le_iff_value (single_canonical x) (single_canonical y) hx hy)

theorem single_lt_iff_value (hx : x.isFinite) (hy : y.isFinite) :
    x < y ↔ singleValue x < singleValue y :=
  single_lt_iff_unpacked.trans
    (unpacked_lt_iff_value (single_canonical x) (single_canonical y) hx hy)

/-- A single between zero and one is finite, and so is its value between them. -/
theorem singleValue_in_unit (hlow : 0 ≤ x) (hhigh : x ≤ 1) :
    x.isFinite ∧ 0 ≤ singleValue x ∧ singleValue x ≤ 1 := by
  have hfinite := single_finite_of_between (x := 0) (y := 1) rfl rfl hlow hhigh
  rw [single_le_iff_value rfl hfinite, singleValue_zero] at hlow
  rw [single_le_iff_value hfinite rfl, singleValue_one] at hhigh
  exact ⟨hfinite, hlow, hhigh⟩

/-! ## Rounded numbers -/

/-- The single is what a number is rounded to. -/
def RoundsTo (q : ℚ) (x : Float32) : Prop :=
  ∃ a, Rounds .binary32 q a ∧ x.toModel.unpack = settle .binary32 a

theorem roundsTo_self (hx : x.isFinite) : RoundsTo (singleValue x) x :=
  ⟨_, rounds_self (single_canonical x) hx, (single_settled x).symm⟩

theorem single_add_roundsTo (hx : x.isFinite) (hy : y.isFinite) :
    RoundsTo (singleValue x + singleValue y) (x + y) :=
  ⟨_, add_rounds (single_canonical x) (single_canonical y) hx hy, rfl⟩

theorem single_sub_roundsTo (hx : x.isFinite) (hy : y.isFinite) :
    RoundsTo (singleValue x - singleValue y) (x - y) :=
  ⟨_, sub_rounds (single_canonical x) (single_canonical y) hx hy, rfl⟩

theorem single_mul_roundsTo (hx : x.isFinite) (hy : y.isFinite) :
    RoundsTo (singleValue x * singleValue y) (x * y) :=
  ⟨_, mul_rounds (single_canonical x) (single_canonical y) hx hy, rfl⟩

namespace RoundsTo

/-- Of two numbers, the larger one is not rounded to less, finite or not. -/
theorem le (h : RoundsTo q x) (h' : RoundsTo q' y) (hq : q ≤ q') : x ≤ y := by
  obtain ⟨a, ha, hx⟩ := h
  obtain ⟨b, hb, hy⟩ := h'
  rw [single_le_iff_unpacked, hx, hy]
  exact ha.mono hb hq

/-- Nothing is rounded to the other side of zero. -/
theorem nonneg (h : RoundsTo q x) (hq : 0 ≤ q) (hx : x.isFinite) : 0 ≤ singleValue x :=
  (single_le_iff_value rfl hx).mp (le (roundsTo_self (x := 0) rfl) h (singleValue_zero.trans_le hq))

/-- A single that is not infinite has the value that was rounded to. -/
theorem rounds (h : RoundsTo q x) (hx : x.isFinite) : Rounds .binary32 q x.toModel.unpack := by
  obtain ⟨a, ha, hunpack⟩ := h
  have hfinite : x.toModel.unpack.isFinite := hx
  rw [settle_eq_capped ha.cases.1] at hunpack
  rcases capped_cases .binary32 a with hkept | ⟨s, -, -, -, -, -, hinfinite⟩
  · rwa [hunpack, hkept]
  · rw [hunpack, hinfinite] at hfinite
    cases hfinite

/-- Between two finite singles nothing overflows. -/
theorem between (h : RoundsTo q z) (hx : x.isFinite) (hy : y.isFinite) (hlow : singleValue x ≤ q)
    (hhigh : q ≤ singleValue y) :
    z.isFinite ∧ singleValue x ≤ singleValue z ∧ singleValue z ≤ singleValue y := by
  obtain ⟨a, ha, hz⟩ := h
  rw [ha.settle_between (single_canonical x) (single_canonical y) hx hy (single_settled x)
    (single_settled y) hlow hhigh] at hz
  refine ⟨?_, ?_, ?_⟩
  · show z.toModel.unpack.isFinite
    rw [hz]
    exact ha.cases.2.1
  · rw [singleValue, singleValue, hz]
    exact (rounds_self (single_canonical x) hx).value_le ha hlow
  · rw [singleValue, singleValue, hz]
    exact ha.value_le (rounds_self (single_canonical y) hy) hhigh

theorem abs_sub_le (h : RoundsTo q x) (hx : x.isFinite) {b : Int} (hq : |q| < 2 ^ b)
    (hb : -125 ≤ b) : |singleValue x - q| ≤ 2 ^ (b - 25) := by
  have hmove := (h.rounds hx).abs_sub_le hq hb
  have hexponent : b - Format.binary32.mantissaBits - 1 = b - 25 := by
    have hbits : Format.binary32.mantissaBits = 24 := rfl
    omega
  rwa [hexponent] at hmove

/-- A small difference of two singles is a single, so it is not rounded. -/
theorem sub_exact (h : RoundsTo (singleValue y - singleValue x) z) (hz : z.isFinite)
    (hsmall : |singleValue y - singleValue x| < 2 ^ (-125 : ℤ)) :
    singleValue z = singleValue y - singleValue x := by
  obtain ⟨n, hn⟩ := singleValue_multiple x
  obtain ⟨m, hm⟩ := singleValue_multiple y
  have hsplit : singleValue y - singleValue x = (m - n : ℤ) * 2 ^ (-149 : ℤ) := by
    rw [hn, hm]
    push_cast
    ring
  have hfits : (m - n).natAbs < 2 ^ 24 := by
    have hscale : (2 ^ (-125 : ℤ) : ℚ) = 2 ^ 24 * 2 ^ (-149 : ℤ) := by
      rw [← zpow_natCast, ← zpow_add₀ two_ne_zero]
      rfl
    rw [hsplit, abs_mul, abs_of_pos (zpow_pos (two_pos (α := ℚ)) _), hscale,
      mul_lt_mul_iff_of_pos_right (zpow_pos two_pos _), ← Int.cast_abs, Int.abs_eq_natAbs] at hsmall
    exact_mod_cast hsmall
  have hrounds := h.rounds hz
  rw [hsplit] at hrounds ⊢
  exact hrounds.value_eq hfits (le_of_eq rfl)

/-- A normal single gets less when it is scaled down by one place or more. -/
theorem shrunk_lt {w t : Float32} {u : ℚ} (hw : w.isFinite)
    (hnormal : 2 ^ (-126 : ℤ) < singleValue w) (hu : 0 ≤ u) (hplace : u ≤ 1 - 1 / 2 ^ 24)
    (ht : RoundsTo (u * singleValue w) t) : singleValue t < singleValue w := by
  have hpos : 0 < singleValue w := (zpow_pos two_pos _).trans hnormal
  have hproduct : 0 ≤ u * singleValue w := mul_nonneg hu hpos.le
  have hshrunk : u * singleValue w ≤ singleValue w := mul_le_of_le_one_left hpos.le (by linarith)
  obtain ⟨htfinite, -, hle⟩ := ht.between (x := 0) rfl hw hproduct hshrunk
  refine lt_of_le_of_ne hle fun hback => ?_
  -- The product is more than half a place below the single, so it is not rounded to it.
  obtain ⟨b, hb⟩ : ∃ b, Int.clog 2 (singleValue w) = b := ⟨_, rfl⟩
  have hbelow : (2 : ℚ) ^ (b - 1) < singleValue w := by
    have := Int.zpow_pred_clog_lt_self (b := 2) one_lt_two hpos
    rwa [hb] at this
  have habove : singleValue w ≤ 2 ^ b := by
    have := Int.self_le_zpow_clog (b := 2) one_lt_two (singleValue w)
    rwa [hb] at this
  have hroom : -126 < b :=
    (zpow_lt_zpow_iff_right₀ (one_lt_two (α := ℚ))).mp (hnormal.trans_le habove)
  have hapart : singleValue w / 2 ^ 24 ≤ singleValue w - u * singleValue w := by nlinarith
  have hless : |u * singleValue w| < 2 ^ b := by
    rw [abs_of_nonneg hproduct]
    have hplaces : 0 < singleValue w / 2 ^ 24 := by positivity
    linarith
  have hmove := (le_abs_self _).trans (ht.abs_sub_le htfinite hless (by omega))
  have hhalf : (2 : ℚ) ^ (b - 25) = 2 ^ (b - 1) / 2 ^ 24 := by
    rw [← zpow_natCast, ← zpow_sub₀ two_ne_zero]
    congr 1
    omega
  have hfar : (2 : ℚ) ^ (b - 1) / 2 ^ 24 < singleValue w / 2 ^ 24 := by gcongr
  rw [hback, hhalf] at hmove
  linarith

/-- A difference that was rounded up is not exceeded again once it is scaled down by one place. -/
theorem shrunk_le {w t : Float32} {u : ℚ} (h : RoundsTo (singleValue y - singleValue x) w)
    (hw : w.isFinite) (hgap : 0 < singleValue y - singleValue x) (hu : 0 ≤ u)
    (hplace : u ≤ 1 - 1 / 2 ^ 24) (ht : RoundsTo (u * singleValue w) t) :
    t.isFinite ∧ 0 ≤ singleValue t ∧ singleValue t ≤ singleValue y - singleValue x := by
  have hpos : 0 ≤ singleValue w := h.nonneg hgap.le hw
  have hshrunk : u * singleValue w ≤ singleValue w := mul_le_of_le_one_left hpos (by linarith)
  obtain ⟨htfinite, htlow, hthigh⟩ := ht.between (x := 0) rfl hw (mul_nonneg hu hpos) hshrunk
  refine ⟨htfinite, htlow, ?_⟩
  by_contra hover
  rw [not_le] at hover
  -- Otherwise the difference, and with it the larger product, is rounded to the same single.
  have hback : singleValue w ≤ singleValue t :=
    (single_le_iff_value hw htfinite).mp (h.le (roundsTo_self htfinite) hover.le)
  have hnormal : (2 : ℚ) ^ (-126 : ℤ) < singleValue w := by
    by_contra hsmall
    have hless : (2 : ℚ) ^ (-126 : ℤ) < 2 ^ (-125 : ℤ) := by norm_num
    have hexact := h.sub_exact hw (by rw [abs_of_pos hgap]; linarith)
    linarith
  exact (shrunk_lt hw hnormal hu hplace ht).not_ge hback

end RoundsTo

/-! ## Magnitudes -/

/-- The single is finite, and at most a power of two in magnitude. -/
def Bounded (b : Nat) (x : Float32) : Prop := x.isFinite ∧ |singleValue x| ≤ 2 ^ b

variable {b c : Nat}

/-- A float that is packed as an infinity is beyond all powers of two of the range. -/
theorem settle_of_abs_lt {a : UnpackedFloat} (ha : Canonical .binary32 a)
    (hlt : |value a| < 2 ^ (128 : ℤ)) : settle .binary32 a = a := by
  rw [settle_eq_capped ha]
  rcases capped_cases .binary32 a with hkept | ⟨s, m, e, hm, rfl, he, -⟩
  · exact hkept
  · have htarget := targetExponent_eq .binary32 m e
    have hover : overflowExponent .binary32 = 105 := rfl
    have hmin : Format.binary32.minExponent = -149 := rfl
    have hbits : Format.binary32.mantissaBits = 24 := rfl
    rw [abs_value_finite] at hlt
    have hlength := exponent_lt_of_magnitude_lt hm hlt
    rw [Canonical] at ha
    omega

theorem RoundsTo.bounded (h : RoundsTo q x) (hq : |q| ≤ 2 ^ b) (hb : b ≤ 127) : Bounded b x := by
  obtain ⟨a, ha, hx⟩ := h
  have hpower : ∀ n : ℤ, n.natAbs = 1 → ∃ a', Rounds .binary32 (n * 2 ^ (b : ℤ)) a' ∧
      value a' = n * 2 ^ (b : ℤ) := fun n hn => by
    have hrounds : Rounds .binary32 (n * 2 ^ (b : ℤ)) _ := ⟨n, b, .positive, rfl, rfl⟩
    have hmin : Format.binary32.minExponent ≤ (b : ℤ) :=
      le_trans (by decide) (Int.natCast_nonneg b)
    exact ⟨_, hrounds, hrounds.value_eq (hn.trans_lt (by decide)) hmin⟩
  obtain ⟨up, hup, hupvalue⟩ := hpower 1 rfl
  obtain ⟨down, hdown, hdownvalue⟩ := hpower (-1) rfl
  rw [Int.cast_one, one_mul, zpow_natCast] at hup hupvalue
  rw [Int.cast_neg, Int.cast_one, neg_one_mul, zpow_natCast] at hdown hdownvalue
  have hvalue : |value a| ≤ 2 ^ b := by
    obtain ⟨hlow, hhigh⟩ := abs_le.mp hq
    exact abs_le.mpr ⟨hdownvalue ▸ hdown.value_le ha hlow, hupvalue ▸ ha.value_le hup hhigh⟩
  have hrange : (2 : ℚ) ^ b < 2 ^ (128 : ℤ) := by
    rw [← zpow_natCast]
    exact zpow_lt_zpow_right₀ one_lt_two (by omega)
  have hunpack := hx.trans (settle_of_abs_lt ha.cases.1 (hvalue.trans_lt hrange))
  constructor
  · show x.toModel.unpack.isFinite
    rw [hunpack]
    exact ha.cases.2.1
  · rwa [singleValue, hunpack]

namespace Bounded

theorem mono (h : Bounded b x) (hle : b ≤ c) : Bounded c x :=
  ⟨h.1, h.2.trans (pow_le_pow_right₀ one_le_two hle)⟩

theorem mul (hx : Bounded b x) (hy : Bounded c y) (hrange : b + c ≤ 127) :
    Bounded (b + c) (x * y) := by
  refine (single_mul_roundsTo hx.1 hy.1).bounded ?_ hrange
  rw [abs_mul, pow_add]
  exact mul_le_mul hx.2 hy.2 (abs_nonneg _) (by positivity)

theorem add (hx : Bounded b x) (hy : Bounded b y) (hrange : b + 1 ≤ 127) :
    Bounded (b + 1) (x + y) := by
  refine (single_add_roundsTo hx.1 hy.1).bounded ?_ hrange
  calc |singleValue x + singleValue y|
      ≤ |singleValue x| + |singleValue y| := abs_add_le _ _
    _ ≤ 2 ^ b + 2 ^ b := add_le_add hx.2 hy.2
    _ = 2 ^ (b + 1) := by ring

theorem sub (hx : Bounded b x) (hy : Bounded b y) (hrange : b + 1 ≤ 127) :
    Bounded (b + 1) (x - y) := by
  refine (single_sub_roundsTo hx.1 hy.1).bounded ?_ hrange
  calc |singleValue x - singleValue y|
      ≤ |singleValue x| + |singleValue y| := abs_sub _ _
    _ ≤ 2 ^ b + 2 ^ b := add_le_add hx.2 hy.2
    _ = 2 ^ (b + 1) := by ring

end Bounded

/-- A number that is not below zero has a root. -/
theorem single_sqrt_number (hx : x.isFinite) (hnonneg : 0 ≤ singleValue x) :
    x.sqrt.isNaN = false := by
  have hfinite : x.toModel.unpack.isFinite := hx
  refine settle_number (a := UnpackedFloat.sqrt .binary32 x.toModel.unpack) ?_
  rw [singleValue] at hnonneg
  generalize x.toModel.unpack = a at hfinite hnonneg
  rcases a with _ | _ | _ | ⟨_ | _, m, e, hm⟩
  · cases hfinite
  · cases hfinite
  · rfl
  · exact absurd hnonneg (value_negative e hm).not_ge
  · exact roundWithAccuracy_number ..

end Espalier
