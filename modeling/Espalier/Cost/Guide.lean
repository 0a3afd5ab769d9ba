import Espalier.Curve
import Espalier.Scalar.Single

/-!
# Guides

A guide is a curve with the weights that turn closeness and alignment into cost: a node is charged
for its distance from the curve, by a quadratic, and for turning away from the curve's direction.
-/

namespace Espalier

structure Guide where
  shape : Curve Float32
  /-- The coefficients of the distance cost, constant first. -/
  distanceMultiplier : Float32 × Float32 × Float32
  alignmentMultiplier : Float32
  /-- Alignment above this value lowers the cost. -/
  alignmentOffset : Float32

namespace Guide

/-- The charge for a distance. -/
def distanceCharge (g : Guide) (d : Float32) : Float32 :=
  let (c0, c1, c2) := g.distanceMultiplier
  c0 + d * (c1 + d * c2)

/-- The charge for a direction, where the curve runs along `tangent`. -/
def alignmentCharge (g : Guide) (tangent direction : Vec3 Float32) : Float32 :=
  (-(tangent.dot direction) + g.alignmentOffset) * g.alignmentMultiplier

/-- The direction of the curve at a parameter, or zero. -/
def tangent (g : Guide) (t : Float32) : Vec3 Float32 := (g.shape.derivative t).normalizeOrZero

/-- Whether distance `a` comes before distance `b`: a NaN comes before every number. -/
def nearer (a b : Float32) : Bool :=
  if b.isNaN then false else a.isNaN || a < b

/-- The nearest guide to a position by its place in the list, and the projection to it. Of equally
near ones it is the first. -/
def nearestIndex? (guides : List Guide) (p : Vec3 Float32) : Option (Nat × Projection Float32) :=
  match guides.zipIdx.map fun (g, i) => (i, g.shape.project p) with
  | [] => none
  | first :: rest =>
    some (rest.foldl (fun best next =>
      if nearer next.2.distance best.2.distance then next else best) first)

/-- The nearest guide to a position, and the projection to it. -/
def nearest? (guides : List Guide) (p : Vec3 Float32) : Option (Guide × Projection Float32) := do
  let (i, projection) ← nearestIndex? guides p
  let g ← guides[i]?
  some (g, projection)

/-- A guide's direction at a position. -/
structure FieldSample where
  position : Vec3 Float32
  direction : Vec3 Float32

/-- One coordinate of a grid of `steps` points that spans `± halfExtent`. A single point is in the
middle. -/
def gridOffset (halfExtent : Float32) (steps i : Nat) : Float32 :=
  if steps = 1 then 0
  else -halfExtent + 2 * halfExtent * singleOfNat i / singleOfNat (steps - 1)

/-- The directions of the nearest guides on a cubic grid around a position. -/
def field (guides : List Guide) (center : Vec3 Float32) (halfExtent : Float32) (steps : Nat) :
    List FieldSample :=
  let steps := max steps 1
  let offset := gridOffset halfExtent steps
  (List.range steps).flatMap fun x =>
    (List.range steps).flatMap fun y =>
      (List.range steps).filterMap fun z =>
        let position := center + ⟨offset x, offset y, offset z⟩
        (nearest? guides position).map fun (g, projection) => ⟨position, g.tangent projection.t⟩

def polylines (guides : List Guide) (samples : Nat) : List (List (Vec3 Float32)) :=
  guides.map fun g => g.shape.samples samples

end Guide

end Espalier
