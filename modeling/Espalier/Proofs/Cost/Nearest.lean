import Espalier.Cost.Guide
import Espalier.Proofs.Scalar.Order
import Espalier.Proofs.Search.Least

/-!
# The nearest guide

A guide is looked for by the distance of a position from its curve, and of equally near ones the
first is taken. A distance that is not a number comes before every number. It comes up when a line
is so long that its square is infinite, and the position so far along it that a quotient of two
infinities is taken for the parameter, although all that was given is finite.

Results:
1. `nearer_trans`, `nearer_of_not_nearer`: distances are ordered, those that are no number in front.
2. `nearest_firstLeast`: which guide is taken, and with which projection.
3. `far_taken`: a guide without a distance is taken before one with a distance.
-/

namespace Espalier.Guide

variable {a b c : Float32}

theorem nearer_iff : nearer a b ↔ b.isNaN = false ∧ (a.isNaN ∨ a < b) := by
  unfold nearer
  cases b.isNaN <;> simp

theorem nearer_trans (hab : nearer a b) (hbc : nearer b c) : nearer a c := by
  rw [nearer_iff] at *
  refine ⟨hbc.1, hab.2.imp_right fun hlt => ?_⟩
  have hb : ¬(b.isNaN = true) := Bool.eq_false_iff.mp hab.1
  exact single_lt_trans hlt (hbc.2.resolve_left hb)

/-- What is not nearer than a bound is farther than all that is. -/
theorem nearer_of_not_nearer (hab : nearer a b) (hcb : ¬nearer c b) : nearer a c := by
  rw [nearer_iff] at *
  rw [not_and_or, not_or] at hcb
  obtain ⟨hc, hlt⟩ := hcb.resolve_left (not_not.mpr hab.1)
  have hnumber : c.isNaN = false := Bool.not_eq_true _ ▸ hc
  exact ⟨hnumber, hab.2.imp_right fun h => single_lt_of_lt_of_not_lt hnumber h hlt⟩

/-- How far a position is from the curve of a guide. -/
def distance (g : Guide) (p : Vec3 Float32) : Float32 := (g.shape.project p).distance

variable {guides : List Guide} {p : Vec3 Float32}

/-- The order in which guides are looked for. -/
def Closer (x y : Nat × Projection Float32) : Prop := nearer x.2.distance y.2.distance

theorem nearestIndex?_firstLeast (hguides : guides ≠ []) : ∃ best,
    nearestIndex? guides p = some best ∧
      FirstLeast Closer (guides.zipIdx.map fun (g, i) => (i, g.shape.project p)) best := by
  unfold nearestIndex?
  split
  next hnone => simp [hguides] at hnone
  next first rest hall =>
    rw [hall]
    refine ⟨_, rfl, foldl_firstLeast ?_ ?_ ?_ first rest ?_⟩
    · exact fun best next (h : Closer next best) => if_pos h
    · exact fun best next (h : ¬Closer next best) => if_neg h
    · exact fun x y z (hxy : Closer x y) (hyz : Closer y z) => nearer_trans hxy hyz
    · exact fun z _ x y (hxy : Closer x y) (hzy : ¬Closer z y) => nearer_of_not_nearer hxy hzy

theorem getElem?_projections (i : Nat) :
    (guides.zipIdx.map fun (g, i) => (i, g.shape.project p))[i]? =
      guides[i]?.map fun g => (i, g.shape.project p) := by
  simp [List.getElem?_zipIdx, Function.comp_def]

/-- Of some guides one is taken, with the projection to its own curve. If its distance is a number,
then among the guides whose distance is one it is the first of the nearest: those before it are
farther, and none behind it is nearer. -/
theorem nearest_firstLeast (hguides : guides ≠ []) (p : Vec3 Float32) :
    ∃ i g, guides[i]? = some g ∧ nearestIndex? guides p = some (i, g.shape.project p) ∧
      nearest? guides p = some (g, g.shape.project p) ∧
      ((g.distance p).isNaN = false → ∀ j h, guides[j]? = some h → (h.distance p).isNaN = false →
        (j < i → g.distance p < h.distance p) ∧ (i < j → ¬h.distance p < g.distance p)) := by
  obtain ⟨best, hbest, hleast⟩ := nearestIndex?_firstLeast (p := p) hguides
  obtain ⟨i, hi, hothers⟩ := hleast.index
  rw [getElem?_projections, Option.map_eq_some_iff] at hi
  obtain ⟨g, hg, rfl⟩ := hi
  refine ⟨i, g, hg, hbest, by simp [nearest?, hbest, hg], fun hnumber j h hj hnumber' => ?_⟩
  have hother := hothers j (j, h.shape.project p) (by rw [getElem?_projections, hj]; rfl)
  simp only [Closer, nearer_iff] at hother
  refine ⟨fun hlt => ?_, fun hlt hless => ?_⟩
  · exact (hother.1 hlt).2.resolve_left (by simpa [distance] using hnumber)
  · exact hother.2 hlt ⟨hnumber, .inr hless⟩

/-! ## A distance that is not a number -/

/-- A guide ten long. -/
def upright : Guide := ⟨.line .zero ⟨0, 10, 0⟩, (0, 0, 1), 10, 0⟩

/-- A guide whose length has no finite square. -/
def far : Guide := ⟨.line .zero ⟨1e30, 0, 0⟩, (0, 0, 1), 10, 0⟩

/-- A place along the far guide. -/
def farPlace : Vec3 Float32 := ⟨1e10, 0, 0⟩

/-- Of two guides that go through a place the first is taken. -/
theorem nearest_firstLeast_tied : [upright, far] ≠ [] ∧
    nearest? [upright, far] .zero = some (upright, upright.shape.project .zero) ∧
      (upright.distance .zero).isNaN = false ∧ ¬far.distance .zero < upright.distance .zero := by
  have hguides : [upright, far] ≠ [] := List.cons_ne_nil _ _
  obtain ⟨i, g, hg, hindex, hnearest, hleast⟩ := nearest_firstLeast hguides .zero
  have htaken : (nearestIndex? [upright, far] .zero).map (·.1) = some 0 := by decide +kernel
  rw [hindex] at htaken
  cases htaken
  cases hg
  have hnumber : (upright.distance .zero).isNaN = false := by decide +kernel
  have hnumber' : (far.distance .zero).isNaN = false := by decide +kernel
  exact ⟨hguides, hnearest, hnumber,
    (hleast hnumber 1 far rfl hnumber').2 Nat.zero_lt_one⟩

/-- The far guide has no distance from the place, and is taken before one that has. -/
theorem far_taken : (upright.distance farPlace).isNaN = false ∧ (far.distance farPlace).isNaN ∧
    (nearestIndex? [upright, far] farPlace).map (·.1) = some 1 := by
  decide +kernel

end Espalier.Guide
