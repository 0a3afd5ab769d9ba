import Espalier.Geometry.Vec3

/-!
# Guiding curves

Curves over the parameters 0 to 1, with their points and derivatives, and the projection of a
position to the nearest point of a curve. A line is projected to in closed form. A Bezier curve is
sampled: a coarse pass over the whole curve, then a fine one over the two coarse steps around the
best coarse sample. A later sample is taken only if it is strictly closer.
-/

namespace Espalier

variable {α : Type} [Scalar α]

inductive Curve (α : Type) where
  | line (start stop : Vec3 α)
  | bezier (p0 p1 p2 p3 : Vec3 α)

/-- A point of a curve next to some position: its parameter, where it is, and how far away. -/
structure Projection (α : Type) where
  t : α
  point : Vec3 α
  distance : α

namespace Curve

def point : Curve α → α → Vec3 α
  | line start stop, t => start.lerp stop t
  | bezier p0 p1 p2 p3, t =>
    let u := 1 - t
    (((u * u * u) • p0 + (Scalar.three * u * u * t) • p1) + (Scalar.three * u * t * t) • p2) +
      (t * t * t) • p3

def derivative : Curve α → α → Vec3 α
  | line start stop, _ => stop - start
  | bezier p0 p1 p2 p3, t =>
    let u := 1 - t
    ((Scalar.three * u * u) • (p1 - p0) + (Scalar.six * u * t) • (p2 - p1)) +
      (Scalar.three * t * t) • (p3 - p2)

/-- The samples at `i / steps` for `i` from 0 to `steps`, of which there is at least one step. -/
def samples (c : Curve α) (steps : Nat) : List (Vec3 α) :=
  let steps := max steps 1
  (List.range (steps + 1)).map fun i => c.point (Scalar.ofNat i / Scalar.ofNat steps)

/-! ## Projection -/

/-- The point at a parameter, as a candidate for the projection of `p`. -/
def candidate (c : Curve α) (p : Vec3 α) (t : α) : Projection α :=
  let point := c.point t
  ⟨t, point, p.distance point⟩

/-- The nearest point of a line. A line of no length is its start. -/
def projectLine (start stop p : Vec3 α) : Projection α :=
  let d := stop - start
  let lengthSq := d.dot d
  let t := if Scalar.lt 0 lengthSq then Scalar.clampUnit ((p - start).dot d / lengthSq) else 0
  let point := start + t • d
  ⟨t, point, p.distance point⟩

def coarseSteps : Nat := 100

def coarseParameter (i : Nat) : α := Scalar.ofNat i / Scalar.ofNat coarseSteps

/-- The best of some coarse samples and of one found before, with its index. -/
def coarseBest (c : Curve α) (p : Vec3 α) (best : Projection α × Nat) (indices : List Nat) :
    Projection α × Nat :=
  indices.foldl (fun best i =>
    let next := c.candidate p (coarseParameter i)
    if Scalar.lt next.distance best.1.distance then (next, i) else best) best

/-- The distance between fine samples: a tenth of a coarse step. -/
def fineStep : α := 1 / Scalar.ofNat 10 / Scalar.ofNat coarseSteps

/-- More fine samples than fit in two coarse steps, whatever the rounding of their parameters. -/
def fineCount : Nat := 32

/-- The fine parameters from `t` up to `stop`, at most `count` of them. -/
def fineParameters (stop : α) : (count : Nat) → (t : α) → List α
  | 0, _ => []
  | count + 1, t => if Scalar.lt stop t then [] else t :: fineParameters stop count (t + fineStep)

def projectSampled (c : Curve α) (p : Vec3 α) : Projection α :=
  let (best, index) :=
    c.coarseBest p (c.candidate p 0, 0) (List.range' 1 coarseSteps)
  let low : α := coarseParameter (index - 1)
  let high : α := coarseParameter (min (index + 1) coarseSteps)
  (fineParameters high fineCount low).foldl (fun best t =>
    let next := c.candidate p t
    if Scalar.lt next.distance best.distance then next else best) best

/-- The nearest point of the curve, as far as it is searched. -/
def project (c : Curve α) (p : Vec3 α) : Projection α :=
  match c with
  | line start stop => projectLine start stop p
  | bezier .. => c.projectSampled p

end Curve

end Espalier
