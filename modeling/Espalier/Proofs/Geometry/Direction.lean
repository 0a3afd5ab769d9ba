import Espalier.Proofs.Curve.Extent
import Espalier.Proofs.Scalar.Inexact
import Espalier.Proofs.Scalar.Opposite

/-!
# Directions of executable vectors

The direction of a vector is the vector times the reciprocal of its length, with five roundings on
the way. It is defined if and only if the square of the length is positive and finite once it is
rounded; then the direction is of moderate size, with at least one coordinate that is not small.
Opposite vectors have opposite directions, and parts across an axis that are opposite too.

Results:
1. `Vec3.exists_direction_iff`: which vectors have a direction.
2. `Vec3.direction_bounds`, `Vec3.direction_dot_self`: how large the coordinates of a direction are,
   and its length.
3. `Vec3.Opposed.normalize?`, `Vec3.Opposed.dot_neg`, `Vec3.Opposed.cross_vanishes`: opposite vectors
   and their directions.
-/

namespace Espalier

open Float.Model (Format UnpackedFloat)
open Float.Model.UnpackedFloat

variable {x y : Float32}

/-! ## Finite operands -/

theorem finite_of_settle {spec : Format} {a : UnpackedFloat} (h : (settle spec a).isFinite) :
    a.isFinite := by
  rcases a with s | _ | _ | _
  · rw [settle_infinity] at h
    cases h
  · rw [settle_notANumber] at h
    cases h
  · rfl
  · rfl

theorem single_finite_of_add (h : (x + y).isFinite) : x.isFinite ∧ y.isFinite := by
  have hsum : (add .binary32 x.toModel.unpack y.toModel.unpack).isFinite := finite_of_settle h
  show x.toModel.unpack.isFinite ∧ y.toModel.unpack.isFinite
  generalize x.toModel.unpack = a, y.toModel.unpack = b at *
  rcases a with (_ | _) | _ | _ | _ <;> rcases b with (_ | _) | _ | _ | _ <;>
    first | exact ⟨rfl, rfl⟩ | cases hsum

theorem single_finite_of_mul_self (h : (x * x).isFinite) : x.isFinite := by
  have hsquare : (mul .binary32 x.toModel.unpack x.toModel.unpack).isFinite := finite_of_settle h
  show x.toModel.unpack.isFinite
  generalize x.toModel.unpack = a at *
  rcases a with _ | _ | _ | _ <;> first | rfl | cases hsquare

/-! ## Reciprocals of roots -/

/-- A positive single is between two even powers of two. -/
theorem exists_even_power (hx : x.isFinite) (hpos : 0 < singleValue x) : ∃ k : Int,
    -74 ≤ k ∧ k ≤ 64 ∧ 2 ^ (2 * k - 2) < singleValue x ∧ singleValue x ≤ 2 ^ (2 * k) := by
  obtain ⟨l, hl⟩ : ∃ l, Int.clog 2 (singleValue x) = l := ⟨_, rfl⟩
  have hbelow : (2 : ℚ) ^ (l - 1) < singleValue x := by
    have := Int.zpow_pred_clog_lt_self (b := 2) one_lt_two hpos
    rwa [hl] at this
  have habove : singleValue x ≤ 2 ^ l := by
    have := Int.self_le_zpow_clog (b := 2) one_lt_two (singleValue x)
    rwa [hl] at this
  obtain ⟨hleast, hmost⟩ := singleValue_range hx hpos
  have hlow : -149 ≤ l :=
    (zpow_le_zpow_iff_right₀ (one_lt_two (α := ℚ))).mp (hleast.trans habove)
  have hhigh : l - 1 < 128 :=
    (zpow_lt_zpow_iff_right₀ (one_lt_two (α := ℚ))).mp (hbelow.trans hmost)
  refine ⟨(l + 1) / 2, by omega, by omega, lt_of_le_of_lt ?_ hbelow, habove.trans ?_⟩
  · exact zpow_le_zpow_right₀ one_le_two (by omega)
  · exact zpow_le_zpow_right₀ one_le_two (by omega)

/-- The reciprocal of the root of a positive single: it is finite, and known up to a factor of two
from powers of two around the single. -/
theorem inverse_root_bounds (hx : x.isFinite) {k : Int} (hmin : -74 ≤ k) (hmax : k ≤ 64)
    (hlow : 2 ^ (2 * k - 2) < singleValue x) (hhigh : singleValue x ≤ 2 ^ (2 * k)) :
    (1 / x.sqrt).isFinite ∧ 2 ^ (-k) ≤ singleValue (1 / x.sqrt) ∧
      singleValue (1 / x.sqrt) ≤ 2 ^ (1 - k) := by
  have hpos : 0 < singleValue x := (zpow_pos two_pos _).trans hlow
  obtain ⟨r, hr, hroot⟩ := single_sqrt_roundsTo hx hpos
  have hrlow : 2 ^ (k - 1) ≤ r := (hroot (k - 1)).1 (by rw [mul_sub_one]; exact hlow.le)
  have hrhigh : r ≤ 2 ^ k := (hroot k).2 hhigh
  have hrpos : 0 < r := (zpow_pos two_pos _).trans_le hrlow
  have hrange : ∀ {t : ℚ} {b : ℤ}, 0 < t → t ≤ 2 ^ b → b ≤ 75 → |t| ≤ 2 ^ 75 := by
    intro t b ht hle hb
    rw [abs_of_pos ht, ← zpow_natCast]
    exact hle.trans (zpow_le_zpow_right₀ one_le_two hb)
  have hrfinite := (hr.bounded (hrange hrpos hrhigh (by omega)) (by decide)).1
  have hrootlow := hr.two_zpow_le hrfinite (by omega) hrlow
  have hroothigh := hr.le_two_zpow hrfinite (by omega) hrhigh
  obtain ⟨u, hu, hinverse⟩ := single_inverse_roundsTo hrfinite
    ((zpow_pos two_pos _).trans_le hrootlow)
  have hulow : 2 ^ (-k) ≤ u := (hinverse k).1 hroothigh
  have huhigh : u ≤ 2 ^ (1 - k) := by
    rw [← neg_sub k 1]
    exact (hinverse (k - 1)).2 hrootlow
  have hupos : 0 < u := (zpow_pos two_pos _).trans_le hulow
  have hufinite := (hu.bounded (hrange hupos huhigh (by omega)) (by decide)).1
  exact ⟨hufinite, hu.two_zpow_le hufinite (by omega) hulow,
    hu.le_two_zpow hufinite (by omega) huhigh⟩

/-! ## Squares -/

theorem square_nonneg (h : (x * x).isFinite) : 0 ≤ singleValue (x * x) := by
  have hx := single_finite_of_mul_self h
  exact (single_mul_roundsTo hx hx).nonneg (mul_self_nonneg _) h

/-- A number is not much larger than the root of its square. -/
theorem abs_le_of_square_le (h : (x * x).isFinite) {k : Int} (hk : -74 ≤ k)
    (hsquare : singleValue (x * x) ≤ 2 ^ (2 * k)) : |singleValue x| ≤ 2 ^ (k + 1) := by
  have hx := single_finite_of_mul_self h
  by_contra hover
  have hlarge : (2 : ℚ) ^ (2 * k + 2) ≤ singleValue x * singleValue x := by
    rw [← abs_mul_abs_self, show 2 * k + 2 = (k + 1) + (k + 1) by ring, zpow_add₀ two_ne_zero]
    exact mul_self_le_mul_self (zpow_pos two_pos _).le (not_le.mp hover).le
  have hback := (single_mul_roundsTo hx hx).two_zpow_le h (by omega) hlarge
  have hexponent := (zpow_le_zpow_iff_right₀ (one_lt_two (α := ℚ))).mp (hback.trans hsquare)
  omega

/-- Nor is the square of a small number much larger than it should be. -/
theorem square_le_of_abs_lt (h : (x * x).isFinite) {k : Int} (hsmall : |singleValue x| < 2 ^ k) :
    singleValue (x * x) ≤ 2 ^ (2 * k) ∧ (2 * k < -149 → singleValue (x * x) = 0) := by
  have hx := single_finite_of_mul_self h
  have hrounds := single_mul_roundsTo hx hx
  have hless : singleValue x * singleValue x < 2 ^ (2 * k) := by
    rw [← abs_mul_abs_self, two_mul, zpow_add₀ two_ne_zero]
    exact mul_self_lt_mul_self (abs_nonneg _) hsmall
  have hzero : 2 * k < -149 → singleValue (x * x) = 0 := fun hk =>
    hrounds.eq_zero_of_small h (mul_self_nonneg _)
      (hless.trans_le (zpow_le_zpow_right₀ one_le_two (by omega)))
  refine ⟨?_, hzero⟩
  rcases lt_or_ge (2 * k) (-149) with hk | hk
  · rw [hzero hk]
    exact (zpow_pos two_pos _).le
  · exact hrounds.le_two_zpow h hk hless.le

section Scaled

variable {r : Float32} {k : Int}

/-- A number times the reciprocal of a root, if its square is not above what the root is of. -/
theorem scaled_bounded (h : (x * x).isFinite) (hk : -74 ≤ k)
    (hsquare : singleValue (x * x) ≤ 2 ^ (2 * k)) (hr : r.isFinite) (hrlow : 2 ^ (-k) ≤ singleValue r)
    (hrhigh : singleValue r ≤ 2 ^ (1 - k)) : Bounded 2 (x * r) := by
  have hrpos : 0 ≤ singleValue r := (zpow_pos two_pos _).le.trans hrlow
  refine (single_mul_roundsTo (single_finite_of_mul_self h) hr).bounded ?_ (by decide)
  calc |singleValue x * singleValue r| = |singleValue x| * singleValue r := by
        rw [abs_mul, abs_of_nonneg hrpos]
    _ ≤ 2 ^ (k + 1) * 2 ^ (1 - k) :=
        mul_le_mul (abs_le_of_square_le h hk hsquare) hrhigh hrpos (zpow_pos two_pos _).le
    _ = 2 ^ 2 := by
        rw [← zpow_add₀ two_ne_zero, ← zpow_natCast]
        congr 1
        omega

/-- It is not small if the number is large next to the root. -/
theorem scaled_far (hx : x.isFinite) (hr : r.isFinite) (hrlow : 2 ^ (-k) ≤ singleValue r)
    (h : (x * r).isFinite) (hlarge : 2 ^ (k - 3) ≤ |singleValue x|) :
    2 ^ (-3 : ℤ) ≤ |singleValue (x * r)| := by
  refine (single_mul_roundsTo hx hr).two_zpow_le_abs h (by decide) ?_
  calc (2 : ℚ) ^ (-3 : ℤ) = 2 ^ (k - 3) * 2 ^ (-k) := by
        rw [← zpow_add₀ two_ne_zero]
        congr 1
        omega
    _ ≤ |singleValue x| * singleValue r :=
        mul_le_mul hlarge hrlow (zpow_pos two_pos _).le (abs_nonneg _)
    _ = |singleValue x * singleValue r| := by
        rw [abs_mul, abs_of_nonneg ((zpow_pos two_pos _).le.trans hrlow)]

end Scaled

section Sums

variable {p q : Float32}

theorem summand_le (hs : (p + q).isFinite) (hp : 0 ≤ singleValue p) (hq : 0 ≤ singleValue q) :
    singleValue p ≤ singleValue (p + q) ∧ singleValue q ≤ singleValue (p + q) := by
  obtain ⟨hpfinite, hqfinite⟩ := single_finite_of_add hs
  have hrounds := single_add_roundsTo hpfinite hqfinite
  exact ⟨(single_le_iff_value hpfinite hs).mp ((roundsTo_self hpfinite).le hrounds (by linarith)),
    (single_le_iff_value hqfinite hs).mp ((roundsTo_self hqfinite).le hrounds (by linarith))⟩

theorem sum_le (hs : (p + q).isFinite) {b : Int} (hb : -149 ≤ b) (hp : singleValue p ≤ 2 ^ b)
    (hq : singleValue q ≤ 2 ^ b) : singleValue (p + q) ≤ 2 ^ (b + 1) := by
  obtain ⟨hpfinite, hqfinite⟩ := single_finite_of_add hs
  refine (single_add_roundsTo hpfinite hqfinite).le_two_zpow hs (by omega) ?_
  rw [zpow_add_one₀ two_ne_zero]
  linarith

theorem sum_eq_zero (hs : (p + q).isFinite) (hp : singleValue p = 0) (hq : singleValue q = 0) :
    singleValue (p + q) = 0 := by
  obtain ⟨hpfinite, hqfinite⟩ := single_finite_of_add hs
  have hrounds := single_add_roundsTo hpfinite hqfinite
  rw [hp, hq, add_zero] at hrounds
  exact hrounds.eq_zero_of_small hs le_rfl (zpow_pos two_pos _)

end Sums

/-! ## Directions -/

namespace Vec3

variable {v w a : Vec3 Float32}

/-- The squares whose sum is finite are finite. -/
theorem squares_finite (h : (v.dot v).isFinite) : (v.x * v.x + v.y * v.y).isFinite ∧
    (v.x * v.x).isFinite ∧ (v.y * v.y).isFinite ∧ (v.z * v.z).isFinite := by
  obtain ⟨hplane, hz⟩ := single_finite_of_add h
  obtain ⟨hx, hy⟩ := single_finite_of_add hplane
  exact ⟨hplane, hx, hy, hz⟩

theorem square_le_dot_self (h : (v.dot v).isFinite) :
    singleValue (v.x * v.x) ≤ singleValue (v.dot v) ∧
      singleValue (v.y * v.y) ≤ singleValue (v.dot v) ∧
      singleValue (v.z * v.z) ≤ singleValue (v.dot v) := by
  obtain ⟨hplane, hx, hy, hz⟩ := squares_finite h
  obtain ⟨hxle, hyle⟩ := summand_le hplane (square_nonneg hx) (square_nonneg hy)
  obtain ⟨hplanele, hzle⟩ := summand_le h ((square_nonneg hx).trans hxle) (square_nonneg hz)
  exact ⟨hxle.trans hplanele, hyle.trans hplanele, hzle⟩

/-- Not all coordinates are small next to the root of the sum of their squares. -/
theorem exists_large (h : (v.dot v).isFinite) {k : Int}
    (hlow : 2 ^ (2 * k - 2) < singleValue (v.dot v)) :
    2 ^ (k - 3) ≤ |singleValue v.x| ∨ 2 ^ (k - 3) ≤ |singleValue v.y| ∨
      2 ^ (k - 3) ≤ |singleValue v.z| := by
  obtain ⟨hplane, hx, hy, hz⟩ := squares_finite h
  by_contra hall
  simp only [not_or, not_le] at hall
  obtain ⟨hxsmall, hysmall, hzsmall⟩ := hall
  obtain ⟨hxle, hxzero⟩ := square_le_of_abs_lt hx hxsmall
  obtain ⟨hyle, hyzero⟩ := square_le_of_abs_lt hy hysmall
  obtain ⟨hzle, hzzero⟩ := square_le_of_abs_lt hz hzsmall
  rcases lt_or_ge (2 * (k - 3)) (-149) with hk | hk
  · have hzero := sum_eq_zero h (sum_eq_zero hplane (hxzero hk) (hyzero hk)) (hzzero hk)
    exact (zpow_pos (two_pos (α := ℚ)) _).not_gt (hzero ▸ hlow)
  · have hzle' := hzle.trans (zpow_le_zpow_right₀ one_le_two (by omega :
      2 * (k - 3) ≤ 2 * (k - 3) + 1))
    have hsum := sum_le h (by omega) (sum_le hplane hk hxle hyle) hzle'
    have hexponent := (zpow_lt_zpow_iff_right₀ (one_lt_two (α := ℚ))).mp (hlow.trans_le hsum)
    omega

/-- A vector has a direction if the square of its length is positive and finite. -/
theorem normalize?_eq_some (h : (v.dot v).isFinite) (hpos : 0 < singleValue (v.dot v)) :
    v.normalize? = some ((1 / v.length) • v) := by
  obtain ⟨k, hmin, hmax, hlow, hhigh⟩ := exists_even_power h hpos
  obtain ⟨hfinite, hrlow, -⟩ := inverse_root_bounds h hmin hmax hlow hhigh
  have hrpos : (0 : Float32) < 1 / v.length :=
    (single_lt_iff_value rfl hfinite).mpr ((zpow_pos two_pos _).trans_le hrlow)
  have htest : (Scalar.isFinite (1 / v.length) && Scalar.lt 0 (1 / v.length)) = true :=
    Bool.and_eq_true_iff.mpr ⟨hfinite, hrpos⟩
  exact if_pos htest

/-- It has none otherwise: the reciprocal of the root is infinite, zero or no number. -/
theorem dot_self_of_normalize? (h : v.normalize? = some a) :
    (v.dot v).isFinite ∧ 0 < singleValue (v.dot v) := by
  have htest : (Scalar.isFinite (1 / v.length) && Scalar.lt 0 (1 / v.length)) = true := by
    by_contra hfail
    have hnone : v.normalize? = none := if_neg hfail
    rw [hnone] at h
    cases h
  obtain ⟨hfinite, hrpos⟩ := Bool.and_eq_true_iff.mp htest
  have hinverse : (1 / v.length).toModel.unpack =
      settle .binary32 (div .binary32 (1 : Float32).toModel.unpack
        (settle .binary32 (UnpackedFloat.sqrt .binary32 (v.dot v).toModel.unpack))) := rfl
  replace hfinite : (1 / v.length).toModel.unpack.isFinite := hfinite
  replace hrpos : (0 : Float32) < 1 / v.length := hrpos
  rw [single_lt_iff_unpacked, hinverse] at hrpos
  rw [hinverse] at hfinite
  show (v.dot v).toModel.unpack.isFinite ∧ 0 < value (v.dot v).toModel.unpack
  generalize (v.dot v).toModel.unpack = d at *
  have hnan : ¬(settle .binary32 (div .binary32 (1 : Float32).toModel.unpack
      (settle .binary32 .notANumber))).isFinite := by decide
  rcases d with (_ | _) | _ | (_ | _) | ⟨_ | _, m, e, hm⟩
  · exact absurd hfinite hnan
  · exact absurd hrpos (by decide)
  · exact absurd hfinite hnan
  · exact absurd hfinite (by decide)
  · exact absurd hfinite (by decide)
  · exact absurd hfinite hnan
  · exact ⟨rfl, by simpa [value, Sign.apply] using magnitude_pos hm e⟩

theorem exists_direction_iff :
    (∃ a, v.normalize? = some a) ↔ (v.dot v).isFinite ∧ 0 < v.dot v := by
  have hcompare : (v.dot v).isFinite → (0 < v.dot v ↔ 0 < singleValue (v.dot v)) := fun h => by
    rw [single_lt_iff_value rfl h, singleValue_zero]
  constructor
  · rintro ⟨a, h⟩
    obtain ⟨hfinite, hpos⟩ := dot_self_of_normalize? h
    exact ⟨hfinite, (hcompare hfinite).mpr hpos⟩
  · rintro ⟨hfinite, hpos⟩
    exact ⟨_, normalize?_eq_some hfinite ((hcompare hfinite).mp hpos)⟩

/-- The coordinates of a direction are of moderate size, and not all of them are small. -/
theorem direction_bounds (h : v.normalize? = some a) : a.Extends 2 ∧
    (2 ^ (-3 : ℤ) ≤ |singleValue a.x| ∨ 2 ^ (-3 : ℤ) ≤ |singleValue a.y| ∨
      2 ^ (-3 : ℤ) ≤ |singleValue a.z|) := by
  obtain ⟨hfinite, hpos⟩ := dot_self_of_normalize? h
  rw [normalize?_eq_some hfinite hpos] at h
  cases h
  obtain ⟨k, hmin, hmax, hlow, hhigh⟩ := exists_even_power hfinite hpos
  obtain ⟨hr, hrlow, hrhigh⟩ := inverse_root_bounds hfinite hmin hmax hlow hhigh
  obtain ⟨-, hx, hy, hz⟩ := squares_finite hfinite
  obtain ⟨hxle, hyle, hzle⟩ := square_le_dot_self hfinite
  have hbounded : ((1 / v.length) • v).Extends 2 :=
    ⟨scaled_bounded hx hmin (hxle.trans hhigh) hr hrlow hrhigh,
      scaled_bounded hy hmin (hyle.trans hhigh) hr hrlow hrhigh,
      scaled_bounded hz hmin (hzle.trans hhigh) hr hrlow hrhigh⟩
  refine ⟨hbounded, ?_⟩
  exact (exists_large hfinite hlow).imp
    (scaled_far (single_finite_of_mul_self hx) hr hrlow hbounded.x.1)
    (Or.imp (scaled_far (single_finite_of_mul_self hy) hr hrlow hbounded.y.1)
      (scaled_far (single_finite_of_mul_self hz) hr hrlow hbounded.z.1))

theorem direction_dot_self (h : v.normalize? = some a) :
    Bounded 6 (a.dot a) ∧ 0 < singleValue (a.dot a) := by
  obtain ⟨hsize, hfar⟩ := direction_bounds h
  have hx := hsize.x.mul hsize.x (by decide)
  have hy := hsize.y.mul hsize.y (by decide)
  have hz := hsize.z.mul hsize.z (by decide)
  have hdot : Bounded 6 (a.dot a) := (hx.add hy (by decide)).add (hz.mono (by decide)) (by decide)
  have hsquare : ∀ {t : Float32}, Bounded 2 t → (t * t).isFinite →
      singleValue (t * t) ≤ singleValue (a.dot a) → 2 ^ (-3 : ℤ) ≤ |singleValue t| →
      0 < singleValue (a.dot a) := by
    intro t ht hfinite hle hlarge
    have hproduct : (2 : ℚ) ^ (-6 : ℤ) ≤ singleValue t * singleValue t := by
      rw [← abs_mul_abs_self, show (-6 : ℤ) = -3 + -3 by rfl, zpow_add₀ two_ne_zero]
      exact mul_self_le_mul_self (zpow_pos two_pos _).le hlarge
    have hback := (single_mul_roundsTo ht.1 ht.1).two_zpow_le hfinite (by decide) hproduct
    exact (zpow_pos two_pos _).trans_le (hback.trans hle)
  obtain ⟨hxle, hyle, hzle⟩ := square_le_dot_self hdot.1
  refine ⟨hdot, ?_⟩
  rcases hfar with hlarge | hlarge | hlarge
  · exact hsquare hsize.x hx.1 hxle hlarge
  · exact hsquare hsize.y hy.1 hyle hlarge
  · exact hsquare hsize.z hz.1 hzle hlarge

/-! ## Opposite vectors -/

/-- One vector is the other with all signs changed, but for the signs of zeros. -/
structure Opposed (v w : Vec3 Float32) : Prop where
  x : Espalier.Opposed v.x w.x
  y : Espalier.Opposed v.y w.y
  z : Espalier.Opposed v.z w.z

namespace Opposed

variable {v' w' b : Vec3 Float32} {s t : Float32}

theorem neg (v : Vec3 Float32) : v.Opposed ⟨-v.x, -v.y, -v.z⟩ := ⟨.neg _, .neg _, .neg _⟩

theorem symm (h : v.Opposed w) : w.Opposed v := ⟨h.x.symm, h.y.symm, h.z.symm⟩

theorem sub (h : v.Opposed w) (h' : v'.Opposed w') : (v - v').Opposed (w - w') :=
  ⟨h.x.sub h'.x, h.y.sub h'.y, h.z.sub h'.z⟩

theorem smul (h : v.Opposed w) (t : Float32) : (t • v).Opposed (t • w) :=
  ⟨h.x.mul_right t, h.y.mul_right t, h.z.mul_right t⟩

theorem smul_of_factors (h : Espalier.Opposed s t) (v : Vec3 Float32) :
    (s • v).Opposed (t • v) :=
  ⟨h.mul_left v.x, h.mul_left v.y, h.mul_left v.z⟩

theorem dot_left (h : v.Opposed w) (u : Vec3 Float32) : Espalier.Opposed (v.dot u) (w.dot u) :=
  ((h.x.mul_right u.x).add (h.y.mul_right u.y)).add (h.z.mul_right u.z)

theorem dot_right (h : v.Opposed w) (u : Vec3 Float32) : Espalier.Opposed (u.dot v) (u.dot w) :=
  ((h.x.mul_left u.x).add (h.y.mul_left u.y)).add (h.z.mul_left u.z)

theorem dot_self (h : v.Opposed w) : w.dot w = v.dot v := by
  show w.x * w.x + w.y * w.y + w.z * w.z = v.x * v.x + v.y * v.y + v.z * v.z
  rw [h.x.mul_self, h.y.mul_self, h.z.mul_self]

/-- Opposite vectors have opposite directions. -/
theorem normalize? (h : v.Opposed w) (hv : v.normalize? = some a) :
    ∃ b, w.normalize? = some b ∧ a.Opposed b := by
  obtain ⟨hfinite, hpos⟩ := dot_self_of_normalize? hv
  rw [normalize?_eq_some hfinite hpos] at hv
  cases hv
  rw [← h.dot_self] at hfinite hpos
  have hlength : w.length = v.length := congrArg Float32.sqrt h.dot_self
  refine ⟨_, normalize?_eq_some hfinite hpos, ?_⟩
  rw [hlength]
  exact h.smul _

/-- The dot product of opposite directions is negative. -/
theorem dot_neg (hv : v.normalize? = some a) (h : a.Opposed b) :
    (a.dot b).isFinite ∧ singleValue (a.dot b) < 0 := by
  obtain ⟨hbounded, hpos⟩ := direction_dot_self hv
  have hopposed := h.dot_right a
  exact ⟨(hopposed.bounded hbounded).1, by rw [hopposed.value_eq]; linarith⟩

/-- Their cross product vanishes. -/
theorem cross_vanishes (ha : a.Extends 2) (h : a.Opposed b) :
    Vanishes (a.cross b).x ∧ Vanishes (a.cross b).y ∧ Vanishes (a.cross b).z := by
  have hterm : ∀ {p p' q q' : Float32}, Espalier.Opposed p p' → Espalier.Opposed q q' →
      Bounded 2 p → Bounded 2 q → Vanishes (p * q' - p' * q) := by
    intro p p' q q' hp hq hbp hbq
    have hleft := single_mul_roundsTo hbp.1 (hq.bounded hbq).1
    have hright := single_mul_roundsTo (hp.bounded hbp).1 hbq.1
    rw [hq.value_eq, mul_neg] at hleft
    rw [hp.value_eq, neg_mul] at hright
    exact hleft.sub_vanishes hright (hbp.mul (hq.bounded hbq) (by decide)).1
      ((hp.bounded hbp).mul hbq (by decide)).1
  exact ⟨hterm h.y h.z ha.y ha.z, hterm h.z h.x ha.z ha.x, hterm h.x h.y ha.x ha.y⟩

end Opposed

end Vec3

end Espalier
