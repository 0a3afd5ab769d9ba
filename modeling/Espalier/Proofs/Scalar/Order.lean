import Mathlib.Data.Prod.Lex

/-!
# The order of floats

A comparison with a NaN is false, so `<` is no linear order on floats. It is one on the numbers
among them, up to the two zeros: a number compares by its sign, then by its exponent, then by its
mantissa, which is the lexicographic order of what `standing?` reads off it.

Results:
1. `unpacked_lt_iff`: one float is below another if both are numbers and it stands below the other,
   and `unpacked_le_iff`: likewise not above.
2. `unpacked_lt_trans`, `unpacked_lt_of_lt_of_not_lt`: what a search for the least number relies on,
   for doubles and for singles.
3. `double_lt_of_le_of_lt`, `double_le_of_not_lt`: what a comparison of two walks relies on.
4. `unpacked_finite_of_between`, `unpacked_infinite_of_le`: what is finite, by its neighbours.
-/

namespace Espalier

open Float.Model

/-- Where a float stands among the others, unless it is no number: its sign, exponent and mantissa,
the latter two reversed below zero. Infinities stand beyond all signs. -/
def standing? : UnpackedFloat → Option (Int ×ₗ Int ×ₗ Int)
  | .infinity .negative => some (toLex (-2, toLex (0, 0)))
  | .finite .negative mantissa exponent _ => some (toLex (-1, toLex (-exponent, -mantissa)))
  | .zero _ => some (toLex (0, toLex (0, 0)))
  | .finite .positive mantissa exponent _ => some (toLex (1, toLex (exponent, mantissa)))
  | .infinity .positive => some (toLex (2, toLex (0, 0)))
  | .notANumber => none

theorem exists_standing {a : UnpackedFloat} (h : a.isNaN = false) : ∃ i, standing? a = some i := by
  rcases a with (_ | _) | _ | _ | ⟨_ | _, _, _, _⟩
  case notANumber => cases h
  all_goals exact ⟨_, rfl⟩

/-- Exponents count before mantissas. -/
theorem compare_then_eq_lt {e e' : Int} {m m' : Nat} :
    (compare e e').then (compare m m') = .lt ↔ e < e' ∨ e = e' ∧ m < m' := by
  rw [Ordering.then_eq_lt, compare_lt_iff_lt, compare_eq_iff_eq, compare_lt_iff_lt]

theorem compare_then_eq_gt {e e' : Int} {m m' : Nat} :
    (compare e e').then (compare m m') = .gt ↔ e' < e ∨ e = e' ∧ m' < m := by
  rw [Ordering.then_eq_gt, compare_gt_iff_gt, compare_eq_iff_eq, compare_gt_iff_gt]

/-- Unpacked floats compare as they stand, if both are numbers. -/
theorem unpacked_lt_iff (a b : UnpackedFloat) :
    a.lt b ↔ ∃ i j, standing? a = some i ∧ standing? b = some j ∧ i < j := by
  rcases a with (_ | _) | _ | (_ | _) | ⟨_ | _, m, e, _⟩ <;>
    rcases b with (_ | _) | _ | (_ | _) | ⟨_ | _, m', e', _⟩ <;>
    dsimp only [UnpackedFloat.lt, UnpackedFloat.compare, standing?] <;>
    simp [Prod.Lex.toLex_lt_toLex, compare_then_eq_lt, compare_then_eq_gt]
  case infinity.negative.infinity.positive => rfl

/-- Likewise if one is not above the other. -/
theorem unpacked_le_iff (a b : UnpackedFloat) :
    a.le b ↔ ∃ i j, standing? a = some i ∧ standing? b = some j ∧ i ≤ j := by
  rcases a with (_ | _) | _ | (_ | _) | ⟨_ | _, m, e, _⟩ <;>
    rcases b with (_ | _) | _ | (_ | _) | ⟨_ | _, m', e', _⟩ <;>
    dsimp only [UnpackedFloat.le, UnpackedFloat.compare, standing?] <;>
    simp [Prod.Lex.toLex_le_toLex]
  case finite.positive.finite.positive =>
    rw [Ordering.isLE_iff_ne_gt, compare_then_eq_gt]
    omega
  case finite.negative.finite.negative =>
    rw [Ordering.isGE_iff_ne_lt, compare_then_eq_lt]
    omega
  all_goals rfl

/-- Only numbers stand anywhere. -/
theorem number_of_standing {a : UnpackedFloat} {i : Int ×ₗ Int ×ₗ Int} (h : standing? a = some i) :
    a.isNaN = false := by
  rcases a with _ | _ | _ | _
  case notANumber => cases h
  all_goals rfl

/-- Only numbers compare. -/
theorem unpacked_number_of_lt {a b : UnpackedFloat} (h : a.lt b) :
    a.isNaN = false ∧ b.isNaN = false := by
  obtain ⟨i, j, hi, hj, -⟩ := (unpacked_lt_iff a b).mp h
  exact ⟨number_of_standing hi, number_of_standing hj⟩

theorem unpacked_number_of_le {a b : UnpackedFloat} (h : a.le b) :
    a.isNaN = false ∧ b.isNaN = false := by
  obtain ⟨i, j, hi, hj, -⟩ := (unpacked_le_iff a b).mp h
  exact ⟨number_of_standing hi, number_of_standing hj⟩

/-- What lies between finite floats is finite. -/
theorem unpacked_finite_of_between {a b c : UnpackedFloat} (ha : a.isFinite) (hc : c.isFinite)
    (hab : a.le b) (hbc : b.le c) : b.isFinite := by
  match b, (unpacked_number_of_le hab).2 with
  | .zero _, _ | .finite .., _ => rfl
  | .infinity .negative, _ =>
    match a, ha with
    | .zero _, _ | .finite .., _ => exact (Bool.false_ne_true hab).elim
  | .infinity .positive, _ =>
    match c, hc with
    | .zero _, _ | .finite .., _ => exact (Bool.false_ne_true hbc).elim

/-- What is not below a finite float, and not finite, is infinite. -/
theorem unpacked_infinite_of_le {a b : UnpackedFloat} (ha : a.isFinite) (hab : a.le b)
    (hb : ¬b.isFinite) : b = .infinity .positive :=
  match b, (unpacked_number_of_le hab).2 with
  | .zero _, _ | .finite .., _ => absurd rfl hb
  | .infinity .positive, _ => rfl
  | .infinity .negative, _ =>
    match a, ha with
    | .zero _, _ | .finite .., _ => (Bool.false_ne_true hab).elim

theorem unpacked_lt_irrefl (a : UnpackedFloat) : ¬a.lt a := by
  rw [unpacked_lt_iff]
  rintro ⟨i, j, hi, hj, hij⟩
  rw [hi] at hj
  cases hj
  exact lt_irrefl i hij

/-- Two comparisons with one float between them compare the outer two. -/
theorem standing_trans {a b c : UnpackedFloat}
    {r r' r'' : Int ×ₗ Int ×ₗ Int → Int ×ₗ Int ×ₗ Int → Prop}
    (hab : ∃ i j, standing? a = some i ∧ standing? b = some j ∧ r i j)
    (hbc : ∃ j k, standing? b = some j ∧ standing? c = some k ∧ r' j k)
    (htrans : ∀ i j k, r i j → r' j k → r'' i k) :
    ∃ i k, standing? a = some i ∧ standing? c = some k ∧ r'' i k := by
  obtain ⟨i, j, hi, hj, hij⟩ := hab
  obtain ⟨j', k, hj', hk, hjk⟩ := hbc
  rw [hj] at hj'
  cases hj'
  exact ⟨i, k, hi, hk, htrans i j k hij hjk⟩

theorem unpacked_lt_trans {a b c : UnpackedFloat} (hab : a.lt b) (hbc : b.lt c) : a.lt c := by
  rw [unpacked_lt_iff] at *
  exact standing_trans hab hbc fun _ _ _ => lt_trans

theorem unpacked_le_trans {a b c : UnpackedFloat} (hab : a.le b) (hbc : b.le c) : a.le c := by
  rw [unpacked_le_iff] at *
  exact standing_trans hab hbc fun _ _ _ => le_trans

theorem unpacked_lt_of_le_of_lt {a b c : UnpackedFloat} (hab : a.le b) (hbc : b.lt c) : a.lt c := by
  rw [unpacked_le_iff] at hab
  rw [unpacked_lt_iff] at *
  exact standing_trans hab hbc fun _ _ _ => lt_of_le_of_lt

/-- Numbers are ordered one way or the other. -/
theorem unpacked_le_of_not_lt {a b : UnpackedFloat} (ha : a.isNaN = false) (hb : b.isNaN = false)
    (h : ¬b.lt a) : a.le b := by
  obtain ⟨i, hi⟩ := exists_standing ha
  obtain ⟨j, hj⟩ := exists_standing hb
  rw [unpacked_lt_iff] at h
  rw [unpacked_le_iff]
  exact ⟨i, j, hi, hj, not_lt.mp fun hji => h ⟨j, i, hj, hi, hji⟩⟩

/-- A number that is not below a bound is above all that is. -/
theorem unpacked_lt_of_lt_of_not_lt {a b c : UnpackedFloat} (hc : c.isNaN = false) (hab : a.lt b)
    (hcb : ¬c.lt b) : a.lt c := by
  have hbc := unpacked_le_of_not_lt (unpacked_number_of_lt hab).2 hc hcb
  rw [unpacked_le_iff] at hbc
  rw [unpacked_lt_iff] at *
  exact standing_trans hab hbc fun _ _ _ => lt_of_lt_of_le

/-! ## Doubles -/

theorem double_lt_iff_unpacked {x y : Float} : x < y ↔ x.toModel.unpack.lt y.toModel.unpack :=
  decide_eq_true_iff

theorem double_le_iff_unpacked {x y : Float} : x ≤ y ↔ x.toModel.unpack.le y.toModel.unpack :=
  decide_eq_true_iff

theorem double_number_of_lt {x y : Float} (h : x < y) : x.isNaN = false ∧ y.isNaN = false :=
  unpacked_number_of_lt (double_lt_iff_unpacked.mp h)

theorem double_lt_irrefl (x : Float) : ¬x < x := by
  rw [double_lt_iff_unpacked]
  exact unpacked_lt_irrefl _

theorem double_finite_of_between {x y z : Float} (hx : x.isFinite) (hy : y.isFinite) (hxz : x ≤ z)
    (hzy : z ≤ y) : z.isFinite :=
  unpacked_finite_of_between hx hy (double_le_iff_unpacked.mp hxz) (double_le_iff_unpacked.mp hzy)

theorem double_lt_trans {x y z : Float} (hxy : x < y) (hyz : y < z) : x < z := by
  rw [double_lt_iff_unpacked] at *
  exact unpacked_lt_trans hxy hyz

theorem double_lt_of_lt_of_not_lt {x y z : Float} (hz : z.isNaN = false) (hxy : x < y)
    (hzy : ¬z < y) : x < z := by
  rw [double_lt_iff_unpacked] at *
  exact unpacked_lt_of_lt_of_not_lt hz hxy hzy

theorem double_lt_of_le_of_lt {x y z : Float} (hxy : x ≤ y) (hyz : y < z) : x < z := by
  rw [double_le_iff_unpacked] at hxy
  rw [double_lt_iff_unpacked] at *
  exact unpacked_lt_of_le_of_lt hxy hyz

theorem double_le_of_not_lt {x y : Float} (hx : x.isNaN = false) (hy : y.isNaN = false)
    (h : ¬y < x) : x ≤ y := by
  rw [double_lt_iff_unpacked] at h
  exact double_le_iff_unpacked.mpr (unpacked_le_of_not_lt hx hy h)

/-! ## Singles -/

theorem single_lt_iff_unpacked {x y : Float32} : x < y ↔ x.toModel.unpack.lt y.toModel.unpack :=
  decide_eq_true_iff

theorem single_le_iff_unpacked {x y : Float32} : x ≤ y ↔ x.toModel.unpack.le y.toModel.unpack :=
  decide_eq_true_iff

theorem single_lt_trans {x y z : Float32} (hxy : x < y) (hyz : y < z) : x < z := by
  rw [single_lt_iff_unpacked] at *
  exact unpacked_lt_trans hxy hyz

theorem single_lt_irrefl (x : Float32) : ¬x < x := by
  rw [single_lt_iff_unpacked]
  exact unpacked_lt_irrefl _

theorem single_finite_of_between {x y z : Float32} (hx : x.isFinite) (hy : y.isFinite) (hxz : x ≤ z)
    (hzy : z ≤ y) : z.isFinite :=
  unpacked_finite_of_between hx hy (single_le_iff_unpacked.mp hxz) (single_le_iff_unpacked.mp hzy)

theorem single_le_trans {x y z : Float32} (hxy : x ≤ y) (hyz : y ≤ z) : x ≤ z := by
  rw [single_le_iff_unpacked] at *
  exact unpacked_le_trans hxy hyz

theorem single_lt_of_le_of_lt {x y z : Float32} (hxy : x ≤ y) (hyz : y < z) : x < z := by
  rw [single_le_iff_unpacked] at hxy
  rw [single_lt_iff_unpacked] at *
  exact unpacked_lt_of_le_of_lt hxy hyz

theorem single_le_of_not_lt {x y : Float32} (hx : x.isNaN = false) (hy : y.isNaN = false)
    (h : ¬y < x) : x ≤ y := by
  rw [single_lt_iff_unpacked] at h
  exact single_le_iff_unpacked.mpr (unpacked_le_of_not_lt hx hy h)

theorem single_lt_of_lt_of_not_lt {x y z : Float32} (hz : z.isNaN = false) (hxy : x < y)
    (hzy : ¬z < y) : x < z := by
  rw [single_lt_iff_unpacked] at *
  exact unpacked_lt_of_lt_of_not_lt hz hxy hzy

end Espalier
