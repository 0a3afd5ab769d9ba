import Espalier.Proofs.Curve.Extent
import Espalier.Proofs.Curve.Scan
import Espalier.Proofs.Search.Least

/-!
# Projection to a curve by samples

A Bezier curve is projected to in two passes that share their best candidate. The coarse pass leaves
the first of its least samples, and the fine one goes through the parameters around it. So the
result is at most as far away as any sample of either pass, as long as all distances are numbers.

Results:
1. `coarseBest_least`: the first of the least coarse samples.
2. `refine_cases`: what the fine pass leaves.
3. `project_best`: the projection is the best of both passes.
-/

namespace Espalier.Curve

open Float.Model.UnpackedFloat

variable {c : Curve Float32} {p : Vec3 Float32} {m : Nat}

/-- The coarse sample is the first of the least. -/
structure CoarseLeast (c : Curve Float32) (p : Vec3 Float32) (m : Nat) : Prop where
  inside : m ≤ coarseSteps
  before : ∀ i < m, c.distanceAt p (coarseParameter m) < c.distanceAt p (coarseParameter i)
  least : ∀ i ≤ coarseSteps, c.distanceAt p (coarseParameter m) ≤ c.distanceAt p (coarseParameter i)

/-! ## Searches -/

section Search

variable {β : Type} (distance : β → Float32)

/-- One thing is closer than another. -/
def Closer (a b : β) : Prop := distance a < distance b

/-- What a search keeps of the best so far and the next. -/
def closerOf (best next : β) : β := if Scalar.lt (distance next) (distance best) then next else best

variable {distance}

theorem Closer.asymm {a b : β} (h : Closer distance a b) : ¬Closer distance b a :=
  fun h' => single_lt_irrefl _ (single_lt_trans h h')

/-- A search keeps the first of the closest, if all distances are numbers. -/
theorem foldl_closerOf (first : β) (rest : List β)
    (hnumber : ∀ a ∈ first :: rest, (distance a).isNaN = false) :
    FirstLeast (Closer distance) (first :: rest) (rest.foldl (closerOf distance) first) := by
  refine foldl_firstLeast ?_ ?_ ?_ first rest fun c hc a b hab hcb => ?_
  · exact fun best next (h : Closer distance next best) => if_pos h
  · exact fun best next (h : ¬Closer distance next best) => if_neg h
  · exact fun a b c (hab : Closer distance a b) (hbc : Closer distance b c) =>
      single_lt_trans hab hbc
  · exact single_lt_of_lt_of_not_lt (hnumber c hc) hab hcb

end Search

/-! ## The coarse pass -/

theorem coarseParameter_zero : (coarseParameter 0 : Float32) = 0 := by decide +kernel

/-- A coarse sample, with its index. -/
def coarseSample (c : Curve Float32) (p : Vec3 Float32) (i : Nat) : Projection Float32 × Nat :=
  (c.candidate p (coarseParameter i), i)

theorem coarseBest_firstLeast
    (hnumber : ∀ i ≤ coarseSteps, (c.distanceAt p (coarseParameter i)).isNaN = false) :
    FirstLeast (Closer (·.1.distance)) ((List.range (coarseSteps + 1)).map (c.coarseSample p))
      (c.coarseBest p (c.candidate p 0, 0) (List.range' 1 coarseSteps)) := by
  have hfirst : (c.candidate p 0, 0) = c.coarseSample p 0 := by
    rw [coarseSample, coarseParameter_zero]
  have hall : (List.range (coarseSteps + 1)).map (c.coarseSample p) =
      c.coarseSample p 0 :: (List.range' 1 coarseSteps).map (c.coarseSample p) := by
    rw [List.range_eq_range', List.range'_succ, List.map_cons]
  have hfold : c.coarseBest p (c.coarseSample p 0) (List.range' 1 coarseSteps) =
      ((List.range' 1 coarseSteps).map (c.coarseSample p)).foldl (closerOf (·.1.distance))
        (c.coarseSample p 0) := by
    rw [List.foldl_map]
    rfl
  rw [hfirst, hfold, hall]
  refine foldl_closerOf _ _ fun a ha => ?_
  rw [← hall, List.mem_map] at ha
  obtain ⟨i, hi, rfl⟩ := ha
  exact hnumber i (Nat.lt_succ_iff.mp (List.mem_range.mp hi))

/-- The coarse pass leaves the first of its least samples. -/
theorem coarseBest_least
    (hnumber : ∀ i ≤ coarseSteps, (c.distanceAt p (coarseParameter i)).isNaN = false) :
    ∃ m, CoarseLeast c p m ∧ c.coarseBest p (c.candidate p 0, 0) (List.range' 1 coarseSteps) =
      (c.candidate p (coarseParameter m), m) := by
  have hleast := coarseBest_firstLeast hnumber
  obtain ⟨m, hm, hothers⟩ := hleast.index
  have hsample : ∀ i ≤ coarseSteps,
      ((List.range (coarseSteps + 1)).map (c.coarseSample p))[i]? = some (c.coarseSample p i) :=
    fun i hi => by
      rw [List.getElem?_map, List.getElem?_range (Nat.lt_succ_of_le hi), Option.map_some]
  have hinside : m ≤ coarseSteps := by
    have hlength := (List.getElem?_eq_some_iff.mp hm).1
    rw [List.length_map, List.length_range] at hlength
    exact Nat.lt_succ_iff.mp hlength
  rw [hsample m hinside] at hm
  have hbest := (Option.some.inj hm).symm
  rw [hbest] at hleast hothers
  refine ⟨m, ⟨hinside, fun i hi => ?_, fun i hi => ?_⟩, hbest⟩
  · exact (hothers i _ (hsample i (hi.le.trans hinside))).1 hi
  · have hmem := List.mem_of_getElem? (hsample i hi)
    have hnot : ¬Closer (·.1.distance) (c.coarseSample p i) (c.coarseSample p m) :=
      hleast.not_less (fun _ _ => Closer.asymm) hmem
    exact single_le_of_not_lt (hnumber m hinside) (hnumber i hi) hnot

/-! ## The fine pass -/

/-- The fine pass leaves what it was given, or a sample that is closer, and none is closer than
that. -/
theorem refine_cases (first : Projection Float32) (ts : List Float32)
    (hfirst : first.distance.isNaN = false)
    (hnumber : ∀ t ∈ ts, (c.distanceAt p t).isNaN = false) :
    let best := (ts.map (c.candidate p)).foldl (closerOf (·.distance)) first
    best.distance ≤ first.distance ∧ (∀ t ∈ ts, best.distance ≤ c.distanceAt p t) ∧
      (best = first ∨ ∃ t ∈ ts, best = c.candidate p t ∧ best.distance < first.distance) := by
  intro best
  have hall : ∀ a ∈ first :: ts.map (c.candidate p), a.distance.isNaN = false := by
    refine List.forall_mem_cons.mpr ⟨hfirst, fun a ha => ?_⟩
    obtain ⟨t, ht, rfl⟩ := List.mem_map.mp ha
    exact hnumber t ht
  have hleast := foldl_closerOf first (ts.map (c.candidate p)) hall
  have hbest : best.distance.isNaN = false := by
    rcases hleast.head_or with heq | ⟨hmem, -⟩
    · exact hall best (heq ▸ List.mem_cons_self)
    · exact hall best (List.mem_cons_of_mem _ hmem)
  have hle : ∀ a ∈ first :: ts.map (c.candidate p), best.distance ≤ a.distance := fun a ha =>
    single_le_of_not_lt hbest (hall a ha) (hleast.not_less (fun _ _ => Closer.asymm) ha)
  refine ⟨hle first List.mem_cons_self, fun t ht => ?_, hleast.head_or.imp_right fun hlater => ?_⟩
  · exact hle (c.candidate p t) (List.mem_cons_of_mem _ (List.mem_map_of_mem ht))
  · obtain ⟨t, ht, heq⟩ := List.mem_map.mp hlater.1
    exact ⟨t, ht, heq.symm, hlater.2⟩

/-- The projection to a Bezier curve, if no sample has a distance that is not a number: it is a
point of the curve, with its distance, no sample of either pass is closer, and the first of the
least coarse samples has only given way to a fine one that is strictly closer. Whatever the
distances are, the fine pass ends of itself. -/
theorem project_best (p0 p1 p2 p3 p : Vec3 Float32)
    (hcoarse : ∀ i ≤ coarseSteps,
      ((bezier p0 p1 p2 p3).distanceAt p (coarseParameter i)).isNaN = false)
    (hfine : ∀ m, CoarseLeast (bezier p0 p1 p2 p3) p m → ∀ t ∈ fineAround m,
      ((bezier p0 p1 p2 p3).distanceAt p t).isNaN = false) :
    let c := bezier p0 p1 p2 p3
    let best := c.project p
    best.point = c.point best.t ∧ best.distance = p.distance best.point ∧
    0 ≤ best.t ∧ best.t ≤ 1 ∧
    (∀ i ≤ coarseSteps, best.distance ≤ c.distanceAt p (coarseParameter i)) ∧
    (∀ m ≤ coarseSteps, Scan (windowHigh m) (windowLow m) (fineAround m)) ∧
    ∃ m, CoarseLeast c p m ∧
      (∀ t ∈ fineAround m, windowLow m ≤ t ∧ t ≤ windowHigh m ∧
        best.distance ≤ c.distanceAt p t) ∧
      (best = c.candidate p (coarseParameter m) ∨ ∃ t ∈ fineAround m,
        best = c.candidate p t ∧ best.distance < c.distanceAt p (coarseParameter m)) := by
  intro c best
  obtain ⟨m, hm, hcoarsest⟩ := coarseBest_least hcoarse
  have hbest : best = ((fineAround m).map (c.candidate p)).foldl
      (closerOf (·.distance)) (c.candidate p (coarseParameter m)) := by
    show c.projectSampled p = _
    rw [projectSampled, hcoarsest, List.foldl_map]
    rfl
  obtain ⟨hfirst, hothers, htaken⟩ := refine_cases (c.candidate p (coarseParameter m))
    (fineAround m) (hcoarse m hm.inside) (hfine m hm)
  rw [← hbest] at hfirst hothers htaken
  obtain ⟨t, ⟨hlow, hhigh⟩, hcandidate⟩ : ∃ t, (0 ≤ t ∧ t ≤ 1) ∧ best = c.candidate p t := by
    rcases htaken with heq | ⟨t, ht, heq, -⟩
    · exact ⟨_, coarseParameter_in_unit m hm.inside, heq⟩
    · exact ⟨t, fineAround_in_unit hm.inside t ht, heq⟩
  refine ⟨by rw [hcandidate]; rfl, by rw [hcandidate]; rfl, by rwa [hcandidate],
    by rwa [hcandidate], fun i hi => single_le_trans hfirst (hm.least i hi),
    fun m => scan_window, m, hm, fun t ht => ?_, htaken⟩
  obtain ⟨hge, hle⟩ := fineAround_between hm.inside t ht
  exact ⟨hge, hle, hothers t ht⟩

/-! ## A curve of moderate size -/

theorem extends_of_le_sixteen {v : Vec3 Float32}
    (h : (-16 ≤ v.x ∧ v.x ≤ 16) ∧ (-16 ≤ v.y ∧ v.y ≤ 16) ∧ (-16 ≤ v.z ∧ v.z ≤ 16)) :
    v.Extends 4 := by
  have hsixteen : singleValue 16 = 16 := by
    have hunpack : (16 : Float32).toModel.unpack =
        .finite .positive (2 ^ 23) (-19) (by decide) := rfl
    norm_num [singleValue, hunpack, value, Sign.apply]
  have hopposite : singleValue (-16) = -16 := by
    have hunpack : (-16 : Float32).toModel.unpack =
        .finite .negative (2 ^ 23) (-19) (by decide) := rfl
    norm_num [singleValue, hunpack, value, Sign.apply]
  have hcoordinate : ∀ {x : Float32}, -16 ≤ x → x ≤ 16 → Bounded 4 x := by
    intro x hlow hhigh
    have hfinite := single_finite_of_between (x := -16) (y := 16) rfl rfl hlow hhigh
    rw [single_le_iff_value rfl hfinite, hopposite] at hlow
    rw [single_le_iff_value hfinite rfl, hsixteen] at hhigh
    exact ⟨hfinite, abs_le.mpr ⟨by linarith, by linarith⟩⟩
  exact ⟨hcoordinate h.1.1 h.1.2, hcoordinate h.2.1.1 h.2.1.2, hcoordinate h.2.2.1 h.2.2.2⟩

/-- A curve that bends by a right angle. -/
def bend : Curve Float32 := .bezier ⟨0, 0, 0⟩ ⟨0, 4, 0⟩ ⟨4, 8, 0⟩ ⟨8, 8, 0⟩

/-- A place beside the bend. -/
def beside : Vec3 Float32 := ⟨2, 3, 1⟩

theorem bend_number {t : Float32} (hlow : 0 ≤ t) (hhigh : t ≤ 1) :
    (bend.distanceAt beside t).isNaN = false := by
  have hsmall : ∀ v ∈ [(⟨0, 0, 0⟩ : Vec3 Float32), ⟨0, 4, 0⟩, ⟨4, 8, 0⟩, ⟨8, 8, 0⟩, beside],
      (-16 ≤ v.x ∧ v.x ≤ 16) ∧ (-16 ≤ v.y ∧ v.y ≤ 16) ∧ (-16 ≤ v.z ∧ v.z ≤ 16) := by
    decide +kernel
  have hextends : ∀ v ∈ [(⟨0, 0, 0⟩ : Vec3 Float32), ⟨0, 4, 0⟩, ⟨4, 8, 0⟩, ⟨8, 8, 0⟩, beside],
      v.Extends 50 := fun v hv => (extends_of_le_sixteen (hsmall v hv)).mono (by decide)
  exact distanceAt_number (hextends _ (by simp)) (hextends _ (by simp)) (hextends _ (by simp))
    (hextends _ (by simp)) (hextends _ (by simp)) hlow hhigh

/-- The projection to the bend from the place beside it. -/
theorem project_best_bend :
    (∀ i ≤ coarseSteps, (bend.distanceAt beside (coarseParameter i)).isNaN = false) ∧
    (∀ m, CoarseLeast bend beside m → ∀ t ∈ fineAround m,
      (bend.distanceAt beside t).isNaN = false) ∧
    ∀ i ≤ coarseSteps, (bend.project beside).distance ≤
      bend.distanceAt beside (coarseParameter i) := by
  have hcoarse : ∀ i ≤ coarseSteps, (bend.distanceAt beside (coarseParameter i)).isNaN = false :=
    fun i hi => bend_number (coarseParameter_in_unit i hi).1 (coarseParameter_in_unit i hi).2
  have hfine : ∀ m, CoarseLeast bend beside m → ∀ t ∈ fineAround m,
      (bend.distanceAt beside t).isNaN = false := fun m hm t ht => by
    obtain ⟨hlow, hhigh⟩ := fineAround_in_unit hm.inside t ht
    exact bend_number hlow hhigh
  obtain ⟨-, -, -, -, hbest, -⟩ := project_best _ _ _ _ beside hcoarse hfine
  exact ⟨hcoarse, hfine, hbest⟩

end Espalier.Curve
