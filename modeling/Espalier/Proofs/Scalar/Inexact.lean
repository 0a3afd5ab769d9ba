import Espalier.Proofs.Scalar.Power

/-!
# Rounding quotients and roots

A quotient or a root is worked out to a mantissa and a remark on what is left over: nothing, less
than half a place, half a place or more. Rounding needs to know no more than that, so it comes to
rounding the number that has a quarter, two or three in place of what is left over. That number lies
on the same side of every power of two as the quotient or the root does.

Results:
1. `roundWithAccuracy_rounds`: the number that is rounded.
2. `sqrt_rounds`, `div_rounds`: roots and quotients, between powers of two.
3. `single_sqrt_roundsTo`, `single_inverse_roundsTo`: the same for singles.
-/

namespace Espalier

open Float.Model (Format UnpackedFloat totalExponent)
open Float.Model.UnpackedFloat

variable {spec : Format} {m : Nat} {e : Int}

/-! ## What is left over -/

/-- A mantissa with a remark on what is left over, in quarters of its last place. -/
def remarked (m : Nat) (acc : Accuracy) : Nat :=
  quarters (ExtendedMantissa.ofMantissaAndAccuracy m acc)

theorem remarked_exact (m : Nat) : remarked m .exact = 4 * m := rfl

theorem remarked_bounds (m : Nat) (acc : Accuracy) :
    4 * m ≤ remarked m acc ∧ remarked m acc ≤ 4 * m + 3 := by
  rcases acc with _ | _ | _ | _ <;>
    simp [remarked, quarters, ExtendedMantissa.ofMantissaAndAccuracy, Nat.add_assoc]

/-- The quarters say all that the remark says. -/
theorem remarked_shifted (m : Nat) (acc : Accuracy) :
    (ExtendedMantissa.ofMantissaAndAccuracy (remarked m acc) .exact >>> 2) =
      ExtendedMantissa.ofMantissaAndAccuracy m acc := by
  have hstep : ∀ em : ExtendedMantissa, em >>> 2 = em.shiftRightOne.shiftRightOne := fun _ => rfl
  rw [hstep]
  rcases acc with _ | _ | _ | _ <;>
    simp [remarked, quarters, ExtendedMantissa.ofMantissaAndAccuracy,
      ExtendedMantissa.shiftRightOne] <;> omega

theorem log2_remarked (hm : 0 < m) (acc : Accuracy) : (remarked m acc).log2 = m.log2 + 2 := by
  obtain ⟨hlow, hhigh⟩ := remarked_bounds m acc
  have hself := Nat.log2_self_le (Nat.ne_of_gt hm)
  have hlt : m < 2 ^ (m.log2 + 1) := Nat.lt_log2_self
  rw [Nat.log2_eq_iff (by omega), Nat.pow_add, Nat.add_right_comm, Nat.pow_add 2 (m.log2 + 1)]
  omega

theorem roundWithAccuracy_eq_round (s : Sign) (hm : 0 < m) (acc : Accuracy)
    (he : e ≤ spec.targetExponent (totalExponent m e)) :
    roundWithAccuracy spec s m e acc = UnpackedFloat.round spec s (remarked m acc) (e - 2) := by
  have htotal : totalExponent (remarked m acc) (e - 2) = totalExponent m e := by
    rw [totalExponent, totalExponent, log2_remarked hm]
    omega
  obtain ⟨k, hk⟩ : ∃ k, (spec.targetExponent (totalExponent m e) - e).toNat = k := ⟨_, rfl⟩
  have hplaces : (spec.targetExponent (totalExponent m e) - (e - 2)).toNat = 2 + k := by omega
  have hnone : (e - 2 - spec.targetExponent (totalExponent m e)).toNat = 0 := by omega
  have hend : e - 2 + ((2 + k : Nat) : Int) = e + k := by omega
  have hshift : shiftToTargetExponent spec (remarked m acc) (e - 2) .exact =
      shiftToTargetExponent spec m e acc := by
    simp only [shiftToTargetExponent, shiftToExponent, htotal, hplaces, hk, hend, shiftRight_add,
      remarked_shifted]
  rw [UnpackedFloat.round, htotal]
  simp only [decreaseExponent, hnone, Nat.shiftLeft_zero, Int.natCast_zero, Int.sub_zero]
  rw [roundWithAccuracy, roundWithAccuracy, hshift]

/-- The number that is rounded: the mantissa with the quarters in place of what is left over. -/
theorem roundWithAccuracy_rounds (hm : 0 < m) (acc : Accuracy)
    (he : e ≤ spec.targetExponent (totalExponent m e)) :
    Rounds spec (remarked m acc * 2 ^ (e - 2)) (roundWithAccuracy spec .positive m e acc) := by
  have hpos : 0 < remarked m acc := by
    have := remarked_bounds m acc
    omega
  refine ⟨remarked m acc, e - 2, .positive, by rw [Int.cast_natCast], ?_⟩
  rw [roundWithAccuracy_eq_round _ hm acc he]
  exact (normalize_apply .positive hpos _ _).symm

/-! ## Powers of two -/

/-- The number that is rounded is not below a power of two that the mantissa has reached. -/
theorem le_remarked {k : Int} {acc : Accuracy} (hm : 0 < m)
    (h : ∀ j : Nat, k = e + j → 2 ^ j ≤ m) : (2 : ℚ) ^ k ≤ remarked m acc * 2 ^ (e - 2) := by
  have hquarters : (4 * m : ℚ) ≤ remarked m acc := by exact_mod_cast (remarked_bounds m acc).1
  have hwhole : (m : ℚ) * 2 ^ e ≤ remarked m acc * 2 ^ (e - 2) := by
    rw [zpow_sub₀ two_ne_zero]
    have hscale : (0 : ℚ) < 2 ^ e := zpow_pos two_pos e
    nlinarith
  refine le_trans ?_ hwhole
  rcases le_or_gt e k with hle | hlt
  · obtain ⟨j, rfl⟩ := Int.le.dest hle
    have hj : (2 ^ j : ℚ) ≤ m := by exact_mod_cast h j rfl
    rw [zpow_add₀ two_ne_zero, zpow_natCast, mul_comm]
    exact mul_le_mul_of_nonneg_right hj (zpow_pos two_pos e).le
  · have hone : (1 : ℚ) ≤ m := by exact_mod_cast hm
    calc (2 : ℚ) ^ k ≤ 1 * 2 ^ e := by
          rw [one_mul]
          exact zpow_le_zpow_right₀ one_le_two hlt.le
      _ ≤ m * 2 ^ e := mul_le_mul_of_nonneg_right hone (zpow_pos two_pos e).le

/-- It is not above a power of two that the mantissa has not reached, or has reached without
leaving anything over. -/
theorem remarked_le {k : Int} {acc : Accuracy}
    (h : ∃ j : Nat, k = e + j ∧ (m < 2 ^ j ∨ m = 2 ^ j ∧ acc = .exact)) :
    (remarked m acc * 2 ^ (e - 2) : ℚ) ≤ 2 ^ k := by
  obtain ⟨j, rfl, hj⟩ := h
  have hquarters : remarked m acc ≤ 4 * 2 ^ j := by
    rcases hj with hlt | ⟨rfl, rfl⟩
    · have := (remarked_bounds m acc).2
      omega
    · exact le_of_eq (remarked_exact _)
  have hcast : (remarked m acc : ℚ) ≤ 4 * 2 ^ j := by exact_mod_cast hquarters
  calc (remarked m acc * 2 ^ (e - 2) : ℚ) ≤ 4 * 2 ^ j * 2 ^ (e - 2) :=
        mul_le_mul_of_nonneg_right hcast (zpow_pos two_pos _).le
    _ = 2 ^ (e + j) := by
        rw [zpow_sub₀ two_ne_zero, zpow_add₀ two_ne_zero, zpow_natCast]
        ring

theorem two_zpow_le_iff {n j : Nat} : (2 : ℚ) ^ (e + j) ≤ n * 2 ^ e ↔ 2 ^ j ≤ n := by
  rw [zpow_add₀ two_ne_zero, mul_comm, zpow_natCast, mul_le_mul_iff_of_pos_right (zpow_pos two_pos e)]
  exact_mod_cast Iff.rfl

theorem le_two_zpow_iff {n j : Nat} : (n * 2 ^ e : ℚ) ≤ 2 ^ (e + j) ↔ n ≤ 2 ^ j := by
  rw [zpow_add₀ two_ne_zero, mul_comm (2 ^ e : ℚ), zpow_natCast,
    mul_le_mul_iff_of_pos_right (zpow_pos two_pos e)]
  exact_mod_cast Iff.rfl

/-- A magnitude is not below the place of its mantissa. -/
theorem exponent_le_of_magnitude_le {k : Int} (hm : 0 < m) (h : (m * 2 ^ e : ℚ) ≤ 2 ^ k) :
    e ≤ k := by
  have hone : (1 : ℚ) ≤ m := by exact_mod_cast hm
  have hle : (2 : ℚ) ^ e ≤ 2 ^ k :=
    le_trans (le_mul_of_one_le_left (zpow_pos two_pos e).le hone) h
  exact (zpow_le_zpow_iff_right₀ one_lt_two).mp hle

/-! ## Roots -/

/-- A root is the integer root of a mantissa whose exponent is even, and exact if that one is. -/
theorem exists_sqrt (spec : Format) (hm : 0 < m) (e : Int) : ∃ (M : Nat) (t : Int) (acc : Accuracy),
    0 < M ∧ (m * 2 ^ e : ℚ) = M * 2 ^ (2 * t) ∧
      t ≤ spec.targetExponent (totalExponent M.sqrt t) ∧ (M = M.sqrt * M.sqrt → acc = .exact) ∧
      UnpackedFloat.sqrt spec (.finite .positive m e hm) =
        roundWithAccuracy spec .positive M.sqrt t acc := by
  obtain ⟨t, ht⟩ : ∃ t, min (e.ediv 2) (spec.targetExponent ((totalExponent m e + 1).ediv 2)) = t :=
    ⟨_, rfl⟩
  obtain ⟨n, hn⟩ : ∃ n, (e - 2 * t).toNat = n := ⟨_, rfl⟩
  obtain ⟨M, hM⟩ : ∃ M, m * 2 ^ n = M := ⟨_, rfl⟩
  have hhalf : t ≤ e / 2 := ht ▸ min_le_left _ _
  have hroom : t ≤ spec.targetExponent ((totalExponent m e + 1).ediv 2) := ht ▸ min_le_right _ _
  have hpos : 0 < M := hM ▸ Nat.mul_pos hm (Nat.two_pow_pos n)
  have htotal : totalExponent M (2 * t) = totalExponent m e := by
    rw [← hM, ← totalExponent_shifted hm e n]
    congr 1
    omega
  refine ⟨M, t, if M - M.sqrt * M.sqrt = 0 then .exact else
    .inexact (if M - M.sqrt * M.sqrt ≤ M.sqrt then .lt else .gt),
    hpos, ?_, ?_, fun hsquare => if_pos ?_, ?_⟩
  · rw [← hM, Nat.cast_mul, Nat.cast_pow, Nat.cast_ofNat, scaled_eq]
    congr 2
    omega
  · have hlog : M.log2 / 2 ≤ M.sqrt.log2 := by
      rw [Nat.le_log2 (Nat.ne_of_gt (Nat.sqrt_pos.mpr hpos)), Nat.le_sqrt, ← Nat.pow_add]
      refine le_trans (Nat.pow_le_pow_right Nat.two_pos ?_) (Nat.log2_self_le (Nat.ne_of_gt hpos))
      omega
    have hmore : (totalExponent m e + 1).ediv 2 ≤ totalExponent M.sqrt t := by
      show (totalExponent m e + 1) / 2 ≤ _
      rw [← htotal, totalExponent, totalExponent]
      omega
    rw [Format.targetExponent] at hroom ⊢
    omega
  · omega
  · simp only [UnpackedFloat.sqrt, sqrtCore, ht, hn, Nat.shiftLeft_eq, hM]

/-- The root of a magnitude is rounded as a number that no power of two separates from it. -/
theorem sqrt_rounds (spec : Format) (hm : 0 < m) (e : Int) :
    ∃ q : ℚ, Rounds spec q (UnpackedFloat.sqrt spec (.finite .positive m e hm)) ∧
      ∀ k : Int, ((2 : ℚ) ^ (2 * k) ≤ m * 2 ^ e → 2 ^ k ≤ q) ∧
        ((m * 2 ^ e : ℚ) ≤ 2 ^ (2 * k) → q ≤ 2 ^ k) := by
  obtain ⟨M, t, acc, hM, hvalue, hroom, hexact, hsqrt⟩ := exists_sqrt spec hm e
  have hroot := Nat.sqrt_pos.mpr hM
  refine ⟨_, hsqrt ▸ roundWithAccuracy_rounds hroot acc hroom, fun k => ?_⟩
  rw [hvalue]
  constructor
  · intro hlow
    refine le_remarked hroot fun j hj => ?_
    have hsquare : 2 ^ (j + j) ≤ M := by
      rw [← two_zpow_le_iff (e := 2 * t)]
      convert hlow using 2
      omega
    rwa [Nat.le_sqrt, ← Nat.pow_add]
  · intro hhigh
    have hle := exponent_le_of_magnitude_le hM hhigh
    obtain ⟨j, rfl⟩ := Int.le.dest (show t ≤ k by omega)
    have hsquare : M ≤ 2 ^ j * 2 ^ j := by
      rw [← Nat.pow_add, ← le_two_zpow_iff (e := 2 * t)]
      convert hhigh using 2
      omega
    refine remarked_le ⟨j, rfl, ?_⟩
    rcases Nat.lt_or_eq_of_le (Nat.sqrt_le_sqrt hsquare) with hlt | heq
    · exact .inl (by rwa [Nat.sqrt_eq] at hlt)
    · rw [Nat.sqrt_eq] at heq
      exact .inr ⟨heq, hexact (le_antisymm (by rwa [heq]) (Nat.sqrt_le M))⟩

/-! ## Quotients -/

/-- A quotient is the integer quotient of the mantissas, and exact if that one is. -/
theorem exists_div {m' : Nat} (hm : 0 < m) (hm' : 0 < m') (e e' : Int)
    (hlarge : spec.minExponent < totalExponent m e - totalExponent m' e') :
    ∃ (M : Nat) (t : Int) (acc : Accuracy),
      m' ≤ M ∧ (m * 2 ^ e : ℚ) = M * 2 ^ (t + e') ∧
        t ≤ spec.targetExponent (totalExponent (M / m') t) ∧ (M % m' = 0 → acc = .exact) ∧
        UnpackedFloat.div spec (.finite .positive m e hm) (.finite .positive m' e' hm') =
          roundWithAccuracy spec .positive (M / m') t acc := by
  obtain ⟨t, ht⟩ : ∃ t, min (e - e')
      (spec.targetExponent (totalExponent m e - totalExponent m' e')) = t := ⟨_, rfl⟩
  obtain ⟨n, hn⟩ : ∃ n, (e - e' - t).toNat = n := ⟨_, rfl⟩
  obtain ⟨M, hM⟩ : ∃ M, m * 2 ^ n = M := ⟨_, rfl⟩
  have hplace : t ≤ e - e' := ht ▸ min_le_left _ _
  have hroom : t ≤ spec.targetExponent (totalExponent m e - totalExponent m' e') :=
    ht ▸ min_le_right _ _
  have hpos : 0 < M := hM ▸ Nat.mul_pos hm (Nat.two_pow_pos n)
  have htotal : totalExponent M (t + e') = totalExponent m e := by
    rw [← hM, ← totalExponent_shifted hm e n]
    congr 1
    omega
  -- The quotient has the leading bit that the lengths of the mantissas promise.
  rw [← htotal, Format.targetExponent, totalExponent, totalExponent] at hroom
  rw [← htotal, totalExponent, totalExponent] at hlarge
  obtain ⟨a, ha⟩ : ∃ a, M.log2 = a + (m'.log2 + 1) := by
    have hbits : spec.mantissaBits = 1 + spec.mantissaBitsWithoutImplicit := rfl
    exact ⟨M.log2 - (m'.log2 + 1), by omega⟩
  have hlead : 2 ^ a * m' ≤ M := by
    refine le_trans ?_ (Nat.log2_self_le (Nat.ne_of_gt hpos))
    rw [ha, Nat.pow_add]
    exact Nat.mul_le_mul_left _ Nat.lt_log2_self.le
  have hle : m' ≤ M := le_trans (Nat.le_mul_of_pos_left m' (Nat.two_pow_pos a)) hlead
  refine ⟨M, t, accuracyOfFraction (M % m') m', hle, ?_, ?_, fun hnone => if_pos hnone, ?_⟩
  · rw [← hM, Nat.cast_mul, Nat.cast_pow, Nat.cast_ofNat, scaled_eq]
    congr 2
    omega
  · have hlog : a ≤ (M / m').log2 := by
      rw [Nat.le_log2 (Nat.ne_of_gt (Nat.div_pos hle hm')), Nat.le_div_iff_mul_le hm']
      exact hlead
    rw [Format.targetExponent, totalExponent]
    omega
  · simp only [UnpackedFloat.div, divCore, ht, hn, Nat.shiftLeft_eq, hM]
    rfl

/-- The quotient of two magnitudes is rounded as a number that no power of two separates from it, if
it is large enough for the format. -/
theorem div_rounds (spec : Format) {m' : Nat} (hm : 0 < m) (hm' : 0 < m') (e e' : Int)
    (hlarge : spec.minExponent < totalExponent m e - totalExponent m' e') :
    ∃ q : ℚ, Rounds spec q
        (UnpackedFloat.div spec (.finite .positive m e hm) (.finite .positive m' e' hm')) ∧
      ∀ k : Int, (2 ^ k * (m' * 2 ^ e') ≤ (m * 2 ^ e : ℚ) → 2 ^ k ≤ q) ∧
        ((m * 2 ^ e : ℚ) ≤ 2 ^ k * (m' * 2 ^ e') → q ≤ 2 ^ k) := by
  obtain ⟨M, t, acc, hle, hvalue, hroom, hexact, hdiv⟩ := exists_div hm hm' e e' hlarge
  have hquotient := Nat.div_pos hle hm'
  have hscale : (0 : ℚ) < 2 ^ (t + e') := zpow_pos two_pos _
  have hpower : ∀ j : Nat, ((2 : ℚ) ^ (t + j) * (m' * 2 ^ e') : ℚ) =
      (2 ^ j * m' : Nat) * 2 ^ (t + e') := fun j => by
    rw [zpow_add₀ two_ne_zero, zpow_add₀ two_ne_zero, zpow_natCast]
    push_cast
    ring
  refine ⟨_, hdiv ▸ roundWithAccuracy_rounds hquotient acc hroom, fun k => ?_⟩
  rw [hvalue]
  constructor
  · intro hlow
    refine le_remarked hquotient fun j hj => ?_
    rw [hj, hpower, mul_le_mul_iff_of_pos_right hscale, Nat.cast_le] at hlow
    exact (Nat.le_div_iff_mul_le hm').mpr hlow
  · intro hhigh
    have hplace : t ≤ k := by
      have hle' : (2 : ℚ) ^ t * (m' * 2 ^ e') ≤ 2 ^ k * (m' * 2 ^ e') := by
        calc (2 : ℚ) ^ t * (m' * 2 ^ e') = m' * 2 ^ (t + e') := by
              rw [zpow_add₀ two_ne_zero]
              ring
          _ ≤ M * 2 ^ (t + e') := mul_le_mul_of_nonneg_right (Nat.cast_le.mpr hle) hscale.le
          _ ≤ 2 ^ k * (m' * 2 ^ e') := hhigh
      exact (zpow_le_zpow_iff_right₀ one_lt_two).mp
        (le_of_mul_le_mul_right hle' (magnitude_pos hm' e'))
    obtain ⟨j, rfl⟩ := Int.le.dest hplace
    rw [hpower, mul_le_mul_iff_of_pos_right hscale, Nat.cast_le] at hhigh
    refine remarked_le ⟨j, rfl, ?_⟩
    have hfloor : M / m' ≤ 2 ^ j := Nat.div_le_of_le_mul (by rwa [Nat.mul_comm])
    rcases Nat.lt_or_eq_of_le hfloor with hlt | heq
    · exact .inl hlt
    · have hsplit := Nat.div_add_mod M m'
      rw [heq, Nat.mul_comm] at hsplit
      exact .inr ⟨heq, hexact (by omega)⟩

/-! ## Singles -/

variable {x : Float32}

/-- The root of a positive single, between powers of two. -/
theorem single_sqrt_roundsTo (hx : x.isFinite) (hpos : 0 < singleValue x) :
    ∃ q, RoundsTo q x.sqrt ∧ ∀ k : Int, (2 ^ (2 * k) ≤ singleValue x → 2 ^ k ≤ q) ∧
      (singleValue x ≤ 2 ^ (2 * k) → q ≤ 2 ^ k) := by
  obtain ⟨m, e, hm, hunpack, hvalue, -, -⟩ := exists_magnitude hx hpos
  obtain ⟨q, hq, hpowers⟩ := sqrt_rounds .binary32 hm e
  rw [hvalue]
  refine ⟨q, ⟨_, hq, ?_⟩, hpowers⟩
  rw [← hunpack]
  rfl

/-- The reciprocal of a positive single, between powers of two. -/
theorem single_inverse_roundsTo (hx : x.isFinite) (hpos : 0 < singleValue x) :
    ∃ q, RoundsTo q (1 / x) ∧ ∀ k : Int, (singleValue x ≤ 2 ^ k → 2 ^ (-k) ≤ q) ∧
      (2 ^ k ≤ singleValue x → q ≤ 2 ^ (-k)) := by
  obtain ⟨m, e, hm, hunpack, hvalue, -, htotal⟩ := exists_magnitude hx hpos
  have hone : (1 : Float32).toModel.unpack = .finite .positive (2 ^ 23) (-23) (by decide) := rfl
  have hlarge : Format.binary32.minExponent < totalExponent (2 ^ 23) (-23) - totalExponent m e := by
    have hmin : Format.binary32.minExponent = -149 := rfl
    have hlead : totalExponent (2 ^ 23) (-23) = 1 := rfl
    omega
  obtain ⟨q, hq, hpowers⟩ := div_rounds .binary32 (by decide) hm (-23) e hlarge
  rw [hvalue]
  refine ⟨q, ⟨_, hq, ?_⟩, fun k => ?_⟩
  · rw [← hunpack, ← hone]
    rfl
  have hscale : ((2 ^ 23 : Nat) : ℚ) * 2 ^ (-23 : ℤ) = 1 := by norm_num
  obtain ⟨hlow, hhigh⟩ := hpowers (-k)
  rw [hscale, zpow_neg, inv_mul_le_iff₀ (zpow_pos two_pos k), mul_one] at hlow
  rw [hscale, zpow_neg, le_inv_mul_iff₀ (zpow_pos two_pos k), mul_one] at hhigh
  rw [zpow_neg]
  exact ⟨hlow, hhigh⟩

end Espalier
