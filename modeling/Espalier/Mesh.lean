import Espalier.Geometry.Vec3
import Espalier.Scalar.Single

/-!
# Meshes

Triangle geometry that a leaf of a scene carries. Scenes hand a mesh through without looking into
it; the one mesh made here is the bone that stands for a segment.
-/

namespace Espalier

/-- Vertices with normals and colours, and triangles of vertex indices. -/
structure Mesh where
  positions : List (Vec3 Float32)
  normals : List (Vec3 Float32)
  triangles : List (Nat × Nat × Nat)
  colors : List (Vec3 Float32)
  shadeless : Bool
deriving DecidableEq

namespace Mesh

/-- Half the width of the bone at its widest ring. -/
def boneWidth : Float32 := 0.1

/-- The height of the widest ring on a bone of length one. -/
def boneWaist : Float32 := 0.2

/-- The vertices of the bone: its base, the four of the widest ring, its tip. -/
def bonePositions : List (Vec3 Float32) :=
  [⟨0, 0, 0⟩, ⟨boneWidth, boneWaist, 0⟩, ⟨0, boneWaist, boneWidth⟩, ⟨-boneWidth, boneWaist, 0⟩,
    ⟨0, boneWaist, -boneWidth⟩, ⟨0, 1, 0⟩]

/-- The prism that stands for a segment: along the second axis, of length one, its eight triangles
counter-clockwise from outside. -/
def bone : Mesh where
  positions := bonePositions
  normals := bonePositions.map fun p => (p - ⟨0, boneWaist, 0⟩).normalizeOrZero
  triangles := (List.range 4).flatMap fun i =>
    let a := 1 + i
    let b := 1 + (i + 1) % 4
    [(0, a, b), (5, b, a)]
  colors := List.replicate 6 ⟨0.9, 0.75, 0.3⟩
  shadeless := true

end Mesh

end Espalier
