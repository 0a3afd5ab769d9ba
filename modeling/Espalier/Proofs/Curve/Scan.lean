import Espalier.Curve
import Espalier.Proofs.Scalar.Single
import Espalier.Scalar.Single

/-!
# The fine scan

The fine parameters are added up one step at a time, and each sum is rounded. A step is so much
larger than what rounding takes off that the scan is through the two coarse steps around a coarse
parameter long before it has made as many passes as it may.

Results:
1. `coarseParameter_in_unit`, `window_narrow`: where the scan begins and ends.
2. `step_forward`: a step leads on, by most of its size.
3. `Scan.between`: what is scanned lies between the ends.
4. `scan_window`: the scan ends of itself.
-/

namespace Espalier.Curve

open Float.Model.UnpackedFloat

variable {stop t : Float32} {ts : List Float32} {m count : Nat}

/-! ## The window -/

/-- The coarse parameter before the given one, if there is one. -/
def windowLow (m : Nat) : Float32 := coarseParameter (m - 1)

/-- The coarse parameter behind the given one, if there is one. -/
def windowHigh (m : Nat) : Float32 := coarseParameter (min (m + 1) coarseSteps)

theorem coarseParameter_in_unit :
    ∀ i ≤ coarseSteps, (0 : Float32) ≤ coarseParameter i ∧ (coarseParameter i : Float32) ≤ 1 := by
  decide +kernel

theorem coarseParameter_bounds {i : Nat} (hi : i ≤ coarseSteps) :
    (coarseParameter i : Float32).isFinite ∧ 0 ≤ singleValue (coarseParameter i) ∧
      singleValue (coarseParameter i) ≤ 1 :=
  singleValue_in_unit (coarseParameter_in_unit i hi).1 (coarseParameter_in_unit i hi).2

theorem windowLow_bounds (hm : m ≤ coarseSteps) : (windowLow m).isFinite ∧
    0 ≤ singleValue (windowLow m) ∧ singleValue (windowLow m) ≤ 1 :=
  coarseParameter_bounds ((Nat.sub_le m 1).trans hm)

theorem windowHigh_bounds (m : Nat) : (windowHigh m).isFinite ∧
    0 ≤ singleValue (windowHigh m) ∧ singleValue (windowHigh m) ≤ 1 :=
  coarseParameter_bounds (Nat.min_le_right ..)

/-- `3/128`, less than two and a half coarse steps. -/
def widest : Float32 := 0.0234375

theorem widest_value : singleValue widest = 3 / 128 := by
  have hunpack : widest.toModel.unpack =
      .finite .positive (3 * 2 ^ 22) (-29) (by decide) := by rfl
  norm_num [singleValue, hunpack, value, Sign.apply]

theorem windowHigh_sub_lt : ∀ m ≤ coarseSteps, windowHigh m - windowLow m < widest := by
  decide +kernel

theorem window_narrow (hm : m ≤ coarseSteps) :
    singleValue (windowHigh m) < singleValue (windowLow m) + 3 / 128 := by
  have hless := windowHigh_sub_lt m hm
  by_contra hwide
  have hdifference := single_sub_roundsTo (windowHigh_bounds m).1 (windowLow_bounds hm).1
  have hle := (roundsTo_self (x := widest) rfl).le hdifference (by rw [widest_value]; linarith)
  exact single_lt_irrefl _ (single_lt_of_le_of_lt hle hless)

/-! ## Passes -/

/-- The fine scan from `t`, as the parameters it visits: it goes on while `t` is not beyond the
end. -/
inductive Scan (stop : Float32) : Float32 → List Float32 → Prop
  | past {t : Float32} (h : ¬t ≤ stop) : Scan stop t []
  | visit {t : Float32} {ts : List Float32} (h : t ≤ stop) (later : Scan stop (t + fineStep) ts) :
      Scan stop t (t :: ts)

theorem fineStep_value : singleValue fineStep = 8589935 / 2 ^ 33 := by
  have hunpack : (fineStep : Float32).toModel.unpack =
      .finite .positive 8589935 (-33) (by decide) := by rfl
  norm_num [singleValue, hunpack, value, Sign.apply]

/-- A step between the ends of the curve leads on by four fifths of its size at least. -/
theorem step_forward (ht : t.isFinite) (hlow : 0 ≤ singleValue t) (hhigh : singleValue t ≤ 1) :
    (t + fineStep).isFinite ∧ singleValue t + 1 / 1250 ≤ singleValue (t + fineStep) := by
  have hsum : RoundsTo _ (t + fineStep) := single_add_roundsTo ht (y := fineStep) rfl
  rw [fineStep_value] at hsum
  have hsize : |singleValue t + 8589935 / 2 ^ 33| < 2 ^ (1 : ℤ) := by
    rw [abs_of_nonneg (by positivity)]
    norm_num
    linarith
  have hfinite : (t + fineStep).isFinite := (hsum.bounded (b := 1) hsize.le (by decide)).1
  have hmove := (abs_le.mp (hsum.abs_sub_le hfinite hsize (by decide))).1
  refine ⟨hfinite, ?_⟩
  norm_num at hmove ⊢
  linarith

/-- What is scanned lies between the ends. -/
theorem Scan.between (h : Scan stop t ts) (hstop : stop.isFinite) (hone : singleValue stop ≤ 1)
    (ht : t.isFinite) (hlow : 0 ≤ singleValue t) : ∀ x ∈ ts, t ≤ x ∧ x ≤ stop := by
  induction h with
  | past h => exact nofun
  | @visit t ts h later ih =>
    have hhigh : singleValue t ≤ 1 := ((single_le_iff_value ht hstop).mp h).trans hone
    obtain ⟨hnext, hforward⟩ := step_forward ht hlow hhigh
    refine List.forall_mem_cons.mpr ⟨⟨(single_le_iff_value ht ht).mpr le_rfl, h⟩, fun x hx => ?_⟩
    obtain ⟨hge, hle⟩ := ih hnext (by linarith) x hx
    refine ⟨?_, hle⟩
    have hx := single_finite_of_between hnext hstop hge hle
    rw [single_le_iff_value hnext hx] at hge
    rw [single_le_iff_value ht hx]
    linarith

/-- A scan ends of itself if its end is within as many short steps as it may make passes. -/
theorem scan_fineParameters (hstop : stop.isFinite) (hone : singleValue stop ≤ 1) (ht : t.isFinite)
    (hlow : 0 ≤ singleValue t) (hroom : singleValue stop < singleValue t + count * (1 / 1250)) :
    Scan stop t (fineParameters stop count t) := by
  induction count generalizing t with
  | zero =>
    refine .past fun hle => ?_
    rw [single_le_iff_value ht hstop] at hle
    rw [Nat.cast_zero, zero_mul, add_zero] at hroom
    exact absurd hle hroom.not_ge
  | succ count ih =>
    rw [fineParameters]
    split
    next hpast =>
      have hlt : stop < t := hpast
      refine .past fun hle => ?_
      exact single_lt_irrefl _ (single_lt_of_le_of_lt hle hlt)
    next hnext =>
      have hle : t ≤ stop := single_le_of_not_lt (single_number_of_finite ht)
        (single_number_of_finite hstop) hnext
      have hhigh : singleValue t ≤ 1 := ((single_le_iff_value ht hstop).mp hle).trans hone
      obtain ⟨hfinite, hforward⟩ := step_forward ht hlow hhigh
      push_cast at hroom
      exact .visit hle (ih hfinite (by linarith) (by linarith))

/-- The fine parameters around a coarse one. -/
def fineAround (m : Nat) : List Float32 := fineParameters (windowHigh m) fineCount (windowLow m)

/-- The scan around a coarse parameter ends of itself. -/
theorem scan_window (hm : m ≤ coarseSteps) :
    Scan (windowHigh m) (windowLow m) (fineAround m) := by
  obtain ⟨hlow, hnonneg, -⟩ := windowLow_bounds hm
  obtain ⟨hhigh, -, hone⟩ := windowHigh_bounds m
  refine scan_fineParameters hhigh hone hlow hnonneg ((window_narrow hm).trans ?_)
  norm_num [fineCount]

/-- The fine parameters lie around the coarse one. -/
theorem fineAround_between (hm : m ≤ coarseSteps) :
    ∀ t ∈ fineAround m, windowLow m ≤ t ∧ t ≤ windowHigh m := by
  obtain ⟨hlow, hnonneg, -⟩ := windowLow_bounds hm
  obtain ⟨hhigh, -, hone⟩ := windowHigh_bounds m
  exact (scan_window hm).between hhigh hone hlow hnonneg

theorem fineAround_in_unit (hm : m ≤ coarseSteps) : ∀ t ∈ fineAround m, 0 ≤ t ∧ t ≤ 1 := by
  intro t ht
  obtain ⟨hge, hle⟩ := fineAround_between hm t ht
  exact ⟨single_le_trans (coarseParameter_in_unit _ ((Nat.sub_le m 1).trans hm)).1 hge,
    single_le_trans hle (coarseParameter_in_unit _ (Nat.min_le_right ..)).2⟩

end Espalier.Curve
