import Espalier.Proofs.Scalar.Power

/-!
# Signs of singles

Rounding and packing do not look at the sign, so from opposite operands an operation gets the
opposite result. Only the sign of a zero is not reliable, since a sum that vanishes is a positive
zero on both sides. So two singles count as opposite here if one is the other with the sign changed,
or if both are zero, and a NaN is opposite to a NaN.

Results:
1. `settle_finite_form`, `roundWithAccuracy_form`: packing and rounding leave the sign alone.
2. `Opposed.add`, `Opposed.sub`, `Opposed.mul_right`, `Opposed.mul_self`: opposite singles.
3. `single_div_sqrt_ne_one`: the sign of a quotient by a root.
-/

namespace Espalier

open Float.Model (Format UnpackedFloat)
open Float.Model.UnpackedFloat

variable {spec : Format}

/-! ## Forms -/

/-- A float but for its sign. -/
inductive Form : (Sign → UnpackedFloat) → Prop
  | notANumber : Form fun _ => .notANumber
  | infinity : Form .infinity
  | zero : Form .zero
  | finite (m : Nat) (e : Int) (hm : 0 < m) : Form fun s => .finite s m e hm

theorem unpack_packComponents_form (exponent : BitVec spec.exponentBits)
    (mantissa : BitVec spec.mantissaBitsWithoutImplicit) :
    ∃ f, Form f ∧ ∀ s, unpack spec (packComponents spec s exponent mantissa) = f s := by
  simp only [unpack, unpackExponent_packComponents, unpackMantissa_packComponents,
    unpackSign_packComponents, Sign.ofBitVec_toBitVec]
  split
  · split
    · exact ⟨_, .infinity, fun _ => rfl⟩
    · exact ⟨_, .notANumber, fun _ => rfl⟩
  · split
    · split
      next => exact ⟨_, .zero, fun _ => rfl⟩
      next hmantissa =>
        have hpos : 0 < mantissa.toNat := by
          rw [← BitVec.toNat_inj, BitVec.toNat_zero] at hmantissa
          exact Nat.pos_of_ne_zero hmantissa
        exact ⟨_, .finite _ _ hpos, fun _ => rfl⟩
    · have hpos : 0 < (1#1 ++ mantissa).toNat := by
        rw [toNat_implicit]
        exact Nat.add_pos_left (Nat.two_pow_pos _) _
      exact ⟨_, .finite _ _ hpos, fun _ => rfl⟩

theorem settle_notANumber : settle spec .notANumber = .notANumber := unpack_packedNaN

theorem settle_zero (s : Sign) : settle spec (.zero s) = .zero s := by
  rw [settle, pack, unpack_packedZero]

theorem settle_infinity (s : Sign) : settle spec (.infinity s) = .infinity s :=
  unpack_packedInfinity s

/-- Packing does not look at the sign. -/
theorem settle_finite_form (spec : Format) (m : Nat) (e : Int) (hm : 0 < m) :
    ∃ f, Form f ∧ ∀ s, settle spec (.finite s m e hm) = f s := by
  simp only [settle, pack]
  split
  · exact ⟨_, .infinity, unpack_packedInfinity⟩
  · split <;> exact unpack_packComponents_form _ _

/-- Nor does rounding. -/
theorem roundWithAccuracy_form (spec : Format) (m : Nat) (e : Int) (acc : Accuracy) :
    ∃ f, Form f ∧ ∀ s, roundWithAccuracy spec s m e acc = f s := by
  simp only [roundWithAccuracy]
  split
  · exact ⟨_, .zero, fun _ => rfl⟩
  · exact ⟨_, .finite .., fun _ => rfl⟩

/-! ## Opposite floats -/

/-- One float is the other with the sign changed, but for the sign of zeros. -/
inductive Opposite : UnpackedFloat → UnpackedFloat → Prop
  | notANumber : Opposite .notANumber .notANumber
  | infinity (s : Sign) : Opposite (.infinity s) (.infinity (-s))
  | zero (s s' : Sign) : Opposite (.zero s) (.zero s')
  | finite (s : Sign) (m : Nat) (e : Int) (hm : 0 < m) :
      Opposite (.finite s m e hm) (.finite (-s) m e hm)

theorem sign_neg_mul (s s' : Sign) : -s * s' = -(s * s') := by cases s <;> cases s' <;> rfl

namespace Opposite

variable {a a' b b' : UnpackedFloat} {f : Sign → UnpackedFloat}

theorem of_form (hf : Form f) (s : Sign) : Opposite (f s) (f (-s)) := by
  cases hf with
  | notANumber => exact .notANumber
  | infinity => exact .infinity s
  | zero => exact .zero s _
  | finite m e hm => exact .finite s m e hm

theorem neg (a : UnpackedFloat) : Opposite a (UnpackedFloat.neg a) := by
  cases a with
  | notANumber => exact .notANumber
  | infinity s => exact .infinity s
  | zero s => exact .zero s _
  | finite s m e hm => exact .finite s m e hm

theorem symm (h : Opposite a b) : Opposite b a := by
  have hsign : ∀ s : Sign, s = - -s := fun s => by cases s <;> rfl
  cases h with
  | notANumber => exact .notANumber
  | infinity s =>
    conv => rhs; rw [hsign s]
    exact .infinity (-s)
  | zero s s' => exact .zero s' s
  | finite s m e hm =>
    conv => rhs; rw [hsign s]
    exact .finite (-s) m e hm

theorem settle (spec : Format) (h : Opposite a b) : Opposite (settle spec a) (settle spec b) := by
  cases h with
  | notANumber =>
    rw [settle_notANumber]
    exact .notANumber
  | infinity s =>
    rw [settle_infinity, settle_infinity]
    exact .infinity s
  | zero s s' =>
    rw [settle_zero, settle_zero]
    exact .zero s s'
  | finite s m e hm =>
    obtain ⟨f, hf, hsettle⟩ := settle_finite_form spec m e hm
    rw [hsettle, hsettle]
    exact of_form hf s

theorem roundWithAccuracy (s : Sign) (m : Nat) (e : Int) (acc : Accuracy) :
    Opposite (roundWithAccuracy spec s m e acc) (roundWithAccuracy spec (-s) m e acc) := by
  obtain ⟨f, hf, hround⟩ := roundWithAccuracy_form spec m e acc
  rw [hround, hround]
  exact of_form hf s

theorem normalize (n e : Int) (z z' : Sign) :
    Opposite (normalize spec n e z) (normalize spec (-n) e z') := by
  rcases lt_trichotomy n 0 with hn | rfl | hn
  · rw [UnpackedFloat.normalize, UnpackedFloat.normalize, Int.compare_eq_lt.mpr hn,
      Int.compare_eq_gt.mpr (by omega)]
    exact roundWithAccuracy .negative ..
  · exact .zero z z'
  · rw [UnpackedFloat.normalize, UnpackedFloat.normalize, Int.compare_eq_gt.mpr hn,
      Int.compare_eq_lt.mpr (by omega), Int.neg_neg]
    exact roundWithAccuracy .positive ..

theorem symm_neg (h : Opposite a a') : Opposite (UnpackedFloat.neg a) (UnpackedFloat.neg a') := by
  cases h with
  | notANumber => exact .notANumber
  | infinity s => exact .infinity (-s)
  | zero s s' => exact .zero (-s) (-s')
  | finite s m e hm => exact .finite (-s) m e hm

theorem sub (spec : Format) (ha : Opposite a a') (hb : Opposite b b') :
    Opposite (sub spec a b) (sub spec a' b') := by
  cases ha with
  | notANumber => cases hb <;> exact .notANumber
  | infinity s =>
    cases hb with
    | notANumber => exact .notANumber
    | infinity s' => cases s <;> cases s' <;> first | exact .notANumber | exact .infinity _
    | zero => exact .infinity s
    | finite => exact .infinity s
  | zero s s' =>
    cases hb with
    | notANumber => exact .notANumber
    | infinity t => exact .infinity (-t)
    | zero t t' =>
      simp only [UnpackedFloat.sub]
      split <;> split <;> exact .zero _ _
    | finite t m e hm => exact .finite (-t) m e hm
  | finite s m e hm =>
    cases hb with
    | notANumber => exact .notANumber
    | infinity t => exact .infinity (-t)
    | zero t t' => exact .finite s m e hm
    | finite t m' e' hm' =>
      have hneg : ∀ i j : Int, -i - -j = -(i - j) := fun i j => by omega
      simp only [UnpackedFloat.sub, apply_neg, hneg]
      exact normalize ..

theorem add (spec : Format) (ha : Opposite a a') (hb : Opposite b b') :
    Opposite (add spec a b) (add spec a' b') := by
  rw [add_eq_sub_neg, add_eq_sub_neg]
  exact ha.sub spec hb.symm_neg

theorem mul_right (spec : Format) (ha : Opposite a a') (b : UnpackedFloat) :
    Opposite (mul spec a b) (mul spec a' b) := by
  cases ha with
  | notANumber => exact .notANumber
  | infinity s =>
    cases b with
    | notANumber => exact .notANumber
    | zero => exact .notANumber
    | infinity t =>
      rw [UnpackedFloat.mul, UnpackedFloat.mul, sign_neg_mul]
      exact .infinity _
    | finite t m e hm =>
      rw [UnpackedFloat.mul, UnpackedFloat.mul, sign_neg_mul]
      exact .infinity _
  | zero s s' =>
    cases b with
    | notANumber => exact .notANumber
    | infinity => exact .notANumber
    | zero => exact .zero _ _
    | finite => exact .zero _ _
  | finite s m e hm =>
    cases b with
    | notANumber => exact .notANumber
    | infinity t =>
      rw [UnpackedFloat.mul, UnpackedFloat.mul, sign_neg_mul]
      exact .infinity _
    | zero => exact .zero _ _
    | finite t m' e' hm' =>
      rw [UnpackedFloat.mul, UnpackedFloat.mul, sign_neg_mul]
      exact roundWithAccuracy ..

theorem mul_self (h : Opposite a a') : mul spec a' a' = mul spec a a := by
  cases h with
  | notANumber => rfl
  | infinity s => cases s <;> rfl
  | zero s s' => cases s <;> cases s' <;> rfl
  | finite s m e hm => cases s <;> rfl

theorem value_eq (h : Opposite a a') : value a' = -value a := by
  cases h with
  | finite s m e hm => exact value_neg (.finite s m e hm)
  | _ => exact neg_zero.symm

theorem isFinite_eq (h : Opposite a a') : a'.isFinite = a.isFinite := by
  cases h <;> rfl

end Opposite

theorem unpacked_mul_comm (a b : UnpackedFloat) : mul spec a b = mul spec b a := by
  have hsign : ∀ s t : Sign, s * t = t * s := fun s t => by cases s <;> cases t <;> rfl
  cases a <;> cases b <;> simp only [mul, hsign, Nat.mul_comm, Int.add_comm]

/-! ## Signs -/

/-- The float has the given sign, or is no number. -/
inductive Signed (s : Sign) : UnpackedFloat → Prop
  | notANumber : Signed s .notANumber
  | infinity : Signed s (.infinity s)
  | zero : Signed s (.zero s)
  | finite (m : Nat) (e : Int) (hm : 0 < m) : Signed s (.finite s m e hm)

namespace Signed

variable {s : Sign} {a : UnpackedFloat} {f : Sign → UnpackedFloat}

theorem of_form (hf : Form f) (s : Sign) : Signed s (f s) := by
  cases hf with
  | notANumber => exact .notANumber
  | infinity => exact .infinity
  | zero => exact .zero
  | finite m e hm => exact .finite m e hm

theorem settle (h : Signed s a) : Signed s (settle spec a) := by
  cases h with
  | notANumber =>
    rw [settle_notANumber]
    exact .notANumber
  | infinity =>
    rw [settle_infinity]
    exact .infinity
  | zero =>
    rw [settle_zero]
    exact .zero
  | finite m e hm =>
    obtain ⟨f, hf, hsettle⟩ := settle_finite_form spec m e hm
    rw [hsettle]
    exact of_form hf s

theorem roundWithAccuracy (s : Sign) (m : Nat) (e : Int) (acc : Accuracy) :
    Signed s (roundWithAccuracy spec s m e acc) := by
  obtain ⟨f, hf, hround⟩ := roundWithAccuracy_form spec m e acc
  rw [hround]
  exact of_form hf s

/-- A negative number over a root is negative, infinite or no number. -/
theorem div_sqrt (spec : Format) (m : Nat) (e : Int) (hm : 0 < m) (d : UnpackedFloat) :
    Signed .negative (Espalier.settle spec (div spec (.finite .negative m e hm)
      (Espalier.settle spec (UnpackedFloat.sqrt spec d)))) ∨
    ∃ s, Espalier.settle spec (div spec (.finite .negative m e hm)
      (Espalier.settle spec (UnpackedFloat.sqrt spec d))) = .infinity s := by
  have hroot : Signed .positive (Espalier.settle spec (UnpackedFloat.sqrt spec d)) ∨
      ∃ s, Espalier.settle spec (UnpackedFloat.sqrt spec d) = .zero s := by
    rcases d with (_ | _) | _ | s | ⟨_ | _, m', e', hm'⟩
    · exact .inl notANumber.settle
    · exact .inl infinity.settle
    · exact .inl notANumber.settle
    · exact .inr ⟨s, settle_zero s⟩
    · exact .inl notANumber.settle
    · exact .inl (roundWithAccuracy ..).settle
  rcases hroot with hroot | ⟨s, hroot⟩
  · left
    generalize Espalier.settle spec (UnpackedFloat.sqrt spec d) = b at hroot
    cases hroot with
    | notANumber => exact notANumber.settle
    | infinity => exact zero.settle
    | zero => exact infinity.settle
    | finite => exact (roundWithAccuracy ..).settle
  · right
    rw [hroot]
    exact ⟨_, settle_infinity _⟩

end Signed

/-! ## Singles -/

/-- One single is the other with the sign changed, but for the sign of zeros. -/
def Opposed (x x' : Float32) : Prop := Opposite x.toModel.unpack x'.toModel.unpack

namespace Opposed

variable {x x' y y' : Float32}

theorem neg (x : Float32) : Opposed x (-x) := by
  have hneg : (-x).toModel.unpack = settle .binary32 (UnpackedFloat.neg x.toModel.unpack) := rfl
  have hopposite := (Opposite.neg x.toModel.unpack).settle .binary32
  rwa [single_settled, ← hneg] at hopposite

theorem add (hx : Opposed x x') (hy : Opposed y y') : Opposed (x + y) (x' + y') :=
  (Opposite.add .binary32 hx hy).settle _

theorem sub (hx : Opposed x x') (hy : Opposed y y') : Opposed (x - y) (x' - y') :=
  (Opposite.sub .binary32 hx hy).settle _

theorem mul_right (hx : Opposed x x') (y : Float32) : Opposed (x * y) (x' * y) :=
  (Opposite.mul_right .binary32 hx _).settle _

theorem mul_self (h : Opposed x x') : x' * x' = x * x :=
  congrArg (fun a => Float32.ofModel (.pack a)) (Opposite.mul_self h)

theorem value_eq (h : Opposed x x') : singleValue x' = -singleValue x :=
  Opposite.value_eq h

theorem symm (h : Opposed x x') : Opposed x' x := Opposite.symm h

theorem bounded {b : Nat} (h : Opposed x x') (hx : Bounded b x) : Bounded b x' :=
  ⟨(Opposite.isFinite_eq h).trans hx.1, by rw [h.value_eq, abs_neg]; exact hx.2⟩

end Opposed

theorem single_mul_comm (x y : Float32) : x * y = y * x :=
  congrArg (fun a => Float32.ofModel (.pack a)) (unpacked_mul_comm _ _)

theorem Opposed.mul_left {x x' : Float32} (hx : Opposed x x') (y : Float32) :
    Opposed (y * x) (y * x') := by
  rw [single_mul_comm y, single_mul_comm y]
  exact hx.mul_right y

/-- A negative single over a root is not one: it is not positive unless the root is zero, and then it
is infinite. -/
theorem single_div_sqrt_ne_one {x : Float32} (hx : x.isFinite) (hneg : singleValue x < 0)
    (y : Float32) : x / y.sqrt ≠ 1 := by
  intro hone
  obtain ⟨m, e, hm, hunpack⟩ := exists_negative hx hneg
  have hquotient : (x / y.sqrt).toModel.unpack =
      settle .binary32 (div .binary32 x.toModel.unpack
        (settle .binary32 (UnpackedFloat.sqrt .binary32 y.toModel.unpack))) := rfl
  have hunit : (1 : Float32).toModel.unpack = .finite .positive (2 ^ 23) (-23) (by decide) := rfl
  rw [hone, hunit, hunpack] at hquotient
  rcases Signed.div_sqrt .binary32 m e hm y.toModel.unpack with hsigned | ⟨s, hinfinite⟩
  · rw [← hquotient] at hsigned
    cases hsigned
  · rw [← hquotient] at hinfinite
    cases hinfinite

end Espalier
