import Espalier.Curve
import Espalier.Proofs.Scalar.Single
import Espalier.Scalar.Single

/-!
# Curves of moderate size

A coordinate that is too large has no square, and a distance may then be infinite or no number. That
takes coordinates far beyond those of any plant: each operation on the way to a distance adds some
bits to the magnitude, and they can be counted.

Results:
1. `Extends.add` and its kin: the magnitude of sums, differences and multiples of vectors.
2. `point_extends`: a point of a curve is a few bits beyond its control points at most.
3. `distanceAt_number`: the distances from a curve of moderate size are numbers.
-/

namespace Espalier

/-! ## Vectors -/

/-- All coordinates are at most a power of two in magnitude. -/
structure Vec3.Extends (b : Nat) (v : Vec3 Float32) : Prop where
  x : Bounded b v.x
  y : Bounded b v.y
  z : Bounded b v.z

namespace Vec3.Extends

variable {v w : Vec3 Float32} {s : Float32} {b c : Nat}

theorem mono (h : v.Extends b) (hle : b ≤ c) : v.Extends c :=
  ⟨h.x.mono hle, h.y.mono hle, h.z.mono hle⟩

theorem smul (hs : Bounded c s) (hv : v.Extends b) (hrange : b + c ≤ 127) :
    (s • v).Extends (b + c) :=
  ⟨hv.x.mul hs hrange, hv.y.mul hs hrange, hv.z.mul hs hrange⟩

theorem add (hv : v.Extends b) (hw : w.Extends b) (hrange : b + 1 ≤ 127) :
    (v + w).Extends (b + 1) :=
  ⟨hv.x.add hw.x hrange, hv.y.add hw.y hrange, hv.z.add hw.z hrange⟩

theorem sub (hv : v.Extends b) (hw : w.Extends b) (hrange : b + 1 ≤ 127) :
    (v - w).Extends (b + 1) :=
  ⟨hv.x.sub hw.x hrange, hv.y.sub hw.y hrange, hv.z.sub hw.z hrange⟩

/-- The square of the length is finite and not below zero, so it has a root. -/
theorem length_number (hv : v.Extends b) (hrange : 2 * b + 2 ≤ 127) : v.length.isNaN = false := by
  have hsquare : ∀ {r : Float32}, Bounded b r → Bounded (b + b) (r * r) ∧ 0 ≤ singleValue (r * r) :=
    fun hr => by
      have hproduct := hr.mul hr (by omega)
      exact ⟨hproduct, (single_mul_roundsTo hr.1 hr.1).nonneg (mul_self_nonneg _) hproduct.1⟩
  obtain ⟨hx, hx'⟩ := hsquare hv.x
  obtain ⟨hy, hy'⟩ := hsquare hv.y
  obtain ⟨hz, hz'⟩ := hsquare hv.z
  have hplane := hx.add hy (by omega)
  have hplane' := (single_add_roundsTo hx.1 hy.1).nonneg (add_nonneg hx' hy') hplane.1
  have hspace := hplane.add (hz.mono (Nat.le_succ _)) (by omega)
  have hspace' := (single_add_roundsTo hplane.1 hz.1).nonneg (add_nonneg hplane' hz') hspace.1
  exact single_sqrt_number hspace.1 hspace'

end Vec3.Extends

/-! ## Curves -/

namespace Curve

variable {p0 p1 p2 p3 p : Vec3 Float32} {t : Float32} {b : Nat}

/-- How far a position is from the curve at a parameter. -/
def distanceAt (c : Curve Float32) (p : Vec3 Float32) (t : Float32) : Float32 :=
  p.distance (c.point t)

theorem bounded_one : Bounded 0 1 := ⟨rfl, by rw [singleValue_one]; norm_num⟩

theorem bounded_three : Bounded 2 (Scalar.three : Float32) :=
  (bounded_one.add bounded_one (by decide)).add (bounded_one.mono (by decide)) (by decide)

theorem bounded_of_in_unit (hlow : 0 ≤ t) (hhigh : t ≤ 1) : Bounded 0 t := by
  obtain ⟨hfinite, hnonneg, hone⟩ := singleValue_in_unit hlow hhigh
  exact ⟨hfinite, by rwa [abs_of_nonneg hnonneg, pow_zero]⟩

/-- A point of a curve is seven bits beyond its control points at most. -/
theorem point_extends (h0 : p0.Extends b) (h1 : p1.Extends b) (h2 : p2.Extends b)
    (h3 : p3.Extends b) (hb : b + 7 ≤ 127) (ht : Bounded 0 t) :
    ((bezier p0 p1 p2 p3).point t).Extends (b + 7) := by
  have hu : Bounded 1 (1 - t) := bounded_one.sub ht (by decide)
  have hu3 : Bounded 3 ((1 - t) * (1 - t) * (1 - t)) :=
    (hu.mul hu (by decide)).mul hu (by decide)
  have h3u : Bounded 3 (Scalar.three * (1 - t)) := bounded_three.mul hu (by decide)
  have hu2t : Bounded 4 (Scalar.three * (1 - t) * (1 - t) * t) :=
    (h3u.mul hu (by decide)).mul ht (by decide)
  have hut2 : Bounded 3 (Scalar.three * (1 - t) * t * t) :=
    (h3u.mul ht (by decide)).mul ht (by decide)
  have ht3 : Bounded 0 (t * t * t) := (ht.mul ht (by decide)).mul ht (by decide)
  have hstart := ((h0.smul hu3 (by omega)).mono (by omega)).add (h1.smul hu2t (by omega)) (by omega)
  have hmiddle := hstart.add ((h2.smul hut2 (by omega)).mono (by omega)) (by omega)
  exact hmiddle.add ((h3.smul ht3 (by omega)).mono (by omega)) (by omega)

/-- A distance from a curve is a number if the coordinates are at most `2^50` in magnitude. -/
theorem distanceAt_number (h0 : p0.Extends 50) (h1 : p1.Extends 50) (h2 : p2.Extends 50)
    (h3 : p3.Extends 50) (hp : p.Extends 50) (hlow : 0 ≤ t) (hhigh : t ≤ 1) :
    ((bezier p0 p1 p2 p3).distanceAt p t).isNaN = false := by
  have hpoint := point_extends h0 h1 h2 h3 (by decide) (bounded_of_in_unit hlow hhigh)
  exact ((hp.mono (by decide)).sub hpoint (by decide)).length_number (by decide)

end Curve

end Espalier
