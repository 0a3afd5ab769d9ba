import Espalier.Proofs.Random.Unit

/-!
# Singles of an interval

A single between two bounds is the lower one plus a share of the gap. The gap, the share and the sum
are each rounded, and the shares go up to one place below one. They never lead beyond the upper
bound, but they may lead to it: between neighbouring singles, every share of more than a half does.
If the gap is too much for a single, no share of it leads anywhere.

Since the result grows with the draw, the largest draw tells whether the upper bound is excluded.

Results:
1. `within_between`, `within_mono`: no draw leaves the bounds, and a larger one leads no less far.
2. `within_overflows`: an infinite gap gives infinity, or no number.
3. `within_excludes_iff`: when all results are below the upper bound.
4. `within_reaches`: bounds for which they are not.
-/

namespace Espalier.Stream

open Float.Model (Format UnpackedFloat)
open Float.Model.UnpackedFloat

variable {low high : Float32} {s s' : Stream}

/-- The largest draw, one place below one. -/
def largestUnit : Float32 := .ofBits 0x3f7fffff

/-- A stream whose next word has all bits set. -/
def allOnes : Stream := ⟨0, 0, 0, 0xffffffffffffffff⟩

theorem unitSingle_allOnes : allOnes.unitSingle = largestUnit := by decide +kernel

theorem largestUnit_value : singleValue largestUnit = 1 - 1 / 2 ^ 24 := by
  have hunpack : largestUnit.toModel.unpack =
      .finite .positive (2 ^ 24 - 1) (-24) (by decide) := rfl
  norm_num [singleValue, hunpack, value, Sign.apply]

theorem unitSingle_le_allOnes (s : Stream) : s.unitSingle ≤ allOnes.unitSingle := by
  rw [single_le_iff_value (unitSingle_exact s).1 (unitSingle_exact _).1, unitSingle_allOnes,
    largestUnit_value]
  exact (unitSingle_bounds s).2

/-! ## Overflow -/

/-- Infinity, or no number: where a share of an infinite gap leads. -/
def Overflows (x : Float32) : Prop :=
  x.toModel.unpack = .infinity .positive ∨ x.toModel.unpack = .notANumber

theorem Overflows.not_finite {x : Float32} (h : Overflows x) : ¬x.isFinite := by
  show ¬x.toModel.unpack.isFinite
  rcases h with h | h <;> rw [h] <;> exact Bool.false_ne_true

theorem Overflows.not_lt {x : Float32} (h : Overflows x) (y : Float32) : ¬x < y := by
  rw [single_lt_iff_unpacked]
  rcases h with h | h <;> rw [h]
  · rcases y.toModel.unpack with (_ | _) | _ | _ | _ <;> exact Bool.false_ne_true
  · exact Bool.false_ne_true

theorem overflows_of_settle {x : Float32} {a : UnpackedFloat}
    (hx : x.toModel.unpack = settle .binary32 a) (ha : a = .infinity .positive ∨ a = .notANumber) :
    Overflows x := by
  rcases ha with rfl | rfl
  · exact .inl (hx.trans (settle_eq_capped trivial))
  · exact .inr (hx.trans (settle_eq_capped trivial))

/-- Zero times infinity is no number, and anything above zero leads to infinity. -/
theorem overflows_mul {u w : Float32} (hu : u.isFinite) (hnonneg : 0 ≤ singleValue u)
    (hw : w.toModel.unpack = .infinity .positive) : Overflows (u * w) := by
  have hmul : (u * w).toModel.unpack =
      settle .binary32 (mul .binary32 u.toModel.unpack w.toModel.unpack) := rfl
  have hfinite : u.toModel.unpack.isFinite := hu
  rw [singleValue] at hnonneg
  refine overflows_of_settle hmul ?_
  rw [hw]
  generalize u.toModel.unpack = a at hfinite hnonneg
  rcases a with _ | _ | _ | ⟨_ | _, m, e, hm⟩
  · cases hfinite
  · cases hfinite
  · exact .inr rfl
  · exact absurd hnonneg (value_negative e hm).not_ge
  · exact .inl rfl

theorem overflows_add {x y : Float32} (hx : x.isFinite) (hy : Overflows y) : Overflows (x + y) := by
  have hadd : (x + y).toModel.unpack =
      settle .binary32 (add .binary32 x.toModel.unpack y.toModel.unpack) := rfl
  have hfinite : x.toModel.unpack.isFinite := hx
  refine overflows_of_settle hadd ?_
  generalize x.toModel.unpack = a at hfinite
  rcases hy with hy | hy <;> rw [hy]
  · left
    rcases a with _ | _ | _ | _ <;> first | rfl | cases hfinite
  · right
    rcases a with _ | _ | _ | _ <;> rfl

/-! ## Results between bounds -/

section Bounds

variable (hlow : low.isFinite) (hhigh : high.isFinite) (hlt : low < high)
include hlow hhigh hlt

theorem gap_pos : 0 < singleValue high - singleValue low :=
  sub_pos.mpr ((single_lt_iff_value hlow hhigh).mp hlt)

/-- The share of the gap that is added to the lower bound. -/
theorem share_bounds (hgap : (high - low).isFinite) (s : Stream) :
    let share := s.unitSingle * (high - low)
    share.isFinite ∧ 0 ≤ singleValue share ∧
      singleValue share ≤ singleValue high - singleValue low := by
  obtain ⟨hnonneg, hplace⟩ := unitSingle_bounds s
  exact (single_sub_roundsTo hhigh hlow).shrunk_le hgap (gap_pos hlow hhigh hlt) hnonneg hplace
    (single_mul_roundsTo (unitSingle_exact s).1 hgap)

/-- No draw leaves the bounds. -/
theorem within_between (hgap : (high - low).isFinite) (s : Stream) :
    low ≤ s.within low high ∧ s.within low high ≤ high := by
  obtain ⟨hshare, hnonneg, hle⟩ := share_bounds hlow hhigh hlt hgap s
  have hsum : RoundsTo _ (s.within low high) := single_add_roundsTo hlow hshare
  exact ⟨(roundsTo_self hlow).le hsum (by linarith), hsum.le (roundsTo_self hhigh) (by linarith)⟩

/-- A larger draw leads no less far. -/
theorem within_mono (hgap : (high - low).isFinite) (h : s.unitSingle ≤ s'.unitSingle) :
    s.within low high ≤ s'.within low high := by
  obtain ⟨hshare, -, -⟩ := share_bounds hlow hhigh hlt hgap s
  obtain ⟨hshare', -, -⟩ := share_bounds hlow hhigh hlt hgap s'
  have hu := (unitSingle_exact s).1
  have hu' := (unitSingle_exact s').1
  have hwide : 0 ≤ singleValue (high - low) :=
    (single_sub_roundsTo hhigh hlow).nonneg (gap_pos hlow hhigh hlt).le hgap
  have hunit := (single_le_iff_value hu hu').mp h
  have hshares := (single_mul_roundsTo hu hgap).le (single_mul_roundsTo hu' hgap)
    (mul_le_mul_of_nonneg_right hunit hwide)
  rw [single_le_iff_value hshare hshare'] at hshares
  exact (single_add_roundsTo hlow hshare).le (single_add_roundsTo hlow hshare')
    (add_le_add_right hshares _)

/-- A gap that is too much for a single is infinite. -/
theorem gap_infinite (hgap : ¬(high - low).isFinite) :
    (high - low).toModel.unpack = .infinity .positive := by
  have hle := (roundsTo_self (x := 0) rfl).le (single_sub_roundsTo hhigh hlow)
    (singleValue_zero.trans_le (gap_pos hlow hhigh hlt).le)
  exact unpacked_infinite_of_le rfl (single_le_iff_unpacked.mp hle) hgap

/-- No share of an infinite gap leads to a finite single, nor to one below the upper bound. -/
theorem within_overflows (hgap : ¬(high - low).isFinite) (s : Stream) :
    ¬(s.within low high).isFinite ∧ ¬s.within low high < high := by
  have hshare := overflows_mul (unitSingle_exact s).1 (unitSingle_bounds s).1
    (gap_infinite hlow hhigh hlt hgap)
  have hresult : Overflows (s.within low high) := overflows_add hlow hshare
  exact ⟨hresult.not_finite, hresult.not_lt high⟩

/-- The largest draw tells whether the upper bound is excluded. -/
theorem within_excludes_iff :
    (∀ s : Stream, low ≤ s.within low high ∧ s.within low high < high) ↔
      (high - low).isFinite ∧ low + largestUnit * (high - low) < high := by
  constructor
  · intro hall
    have hfull : allOnes.within low high < high := (hall allOnes).2
    refine ⟨?_, by rwa [within, unitSingle_allOnes] at hfull⟩
    by_contra hgap
    exact (within_overflows hlow hhigh hlt hgap allOnes).2 hfull
  · rintro ⟨hgap, hfull⟩ s
    have hmono := within_mono hlow hhigh hlt hgap (unitSingle_le_allOnes s)
    rw [within, within, unitSingle_allOnes] at hmono
    exact ⟨(within_between hlow hhigh hlt hgap s).1, single_lt_of_le_of_lt hmono hfull⟩

end Bounds

/-- For finite bounds, the lower below the upper: all draws give something from the lower bound to
below the upper one if and only if the gap is finite and the largest draw does so, which is a test
of the bounds alone. If the gap is finite, then no draw leaves the bounds, though one may give the
upper one, and a larger draw leads no less far. If it is not, then no draw gives anything between
the bounds. Each result takes one word. -/
theorem within_interval (hlow : low.isFinite) (hhigh : high.isFinite) (hlt : low < high) :
    ((∀ s : Stream, low ≤ s.within low high ∧ s.within low high < high) ↔
      (high - low).isFinite ∧ low + largestUnit * (high - low) < high) ∧
    ((high - low).isFinite → ∀ s : Stream,
      low ≤ s.within low high ∧ s.within low high ≤ high ∧
      ∀ s' : Stream, s.unitSingle ≤ s'.unitSingle → s.within low high ≤ s'.within low high) ∧
    (¬(high - low).isFinite → ∀ s : Stream,
      ¬(s.within low high).isFinite ∧ ¬s.within low high < high) ∧
    ∀ (s : Stream) (count n : Nat), s.serve count (.within low high n) =
      .ok (.singles ((List.range n).map fun i => (s.advanceBy i).within low high), s.advanceBy n,
        none) := by
  refine ⟨within_excludes_iff hlow hhigh hlt, fun hgap s => ?_,
    within_overflows hlow hhigh hlt, fun s count n => ?_⟩
  · obtain ⟨hge, hle⟩ := within_between hlow hhigh hlt hgap s
    exact ⟨hge, hle, fun s' => within_mono hlow hhigh hlt hgap⟩
  · rw [serve, if_pos (.inr hlt), draws_eq]

/-- Around zero, the largest draw is still below the upper bound, so all are. -/
theorem within_interval_around_zero :
    (-0.5 : Float32).isFinite ∧ (0.5 : Float32).isFinite ∧ (-0.5 : Float32) < 0.5 ∧
    ∀ s : Stream, (-0.5 : Float32) ≤ s.within (-0.5) 0.5 ∧ s.within (-0.5) 0.5 < 0.5 := by
  have hlow : (-0.5 : Float32).isFinite := by decide +kernel
  have hhigh : (0.5 : Float32).isFinite := by decide +kernel
  have hlt : (-0.5 : Float32) < 0.5 := by decide +kernel
  have hfull : ((0.5 : Float32) - -0.5).isFinite ∧
      (-0.5 : Float32) + largestUnit * (0.5 - -0.5) < 0.5 := by decide +kernel
  exact ⟨hlow, hhigh, hlt, (within_interval hlow hhigh hlt).1.mpr hfull⟩

/-- Between one and the next single above it, the first draw of this seed gives the upper bound. And
between these wide bounds, it gives nothing finite. -/
theorem within_reaches :
    let next : Float32 := .ofBits 0x3f800001
    ((1 : Float32).isFinite ∧ next.isFinite ∧ (1 : Float32) < next ∧
      ¬(ofSeed 1).within 1 next < next) ∧
    ((-3e38 : Float32).isFinite ∧ (3e38 : Float32).isFinite ∧ (-3e38 : Float32) < 3e38 ∧
      ¬(ofSeed 1).within (-3e38) 3e38 < 3e38) := by
  decide +kernel

end Espalier.Stream
