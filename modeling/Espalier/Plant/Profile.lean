import Espalier.Mesh

/-!
# Plant profiles

The parameters that shape a plant, and two sets of them: a sapling, upright with long segments, and
a shrub, low and wide.
-/

namespace Espalier

/-- The power of a single, by squaring. The exponent has at most `bits` binary digits. -/
def powerUpTo : (bits : Nat) → (result base : Float32) → (exponent : Nat) → Float32
  | 0, result, _, _ => result
  | bits + 1, result, base, exponent =>
    let result := if exponent % 2 = 1 then result * base else result
    if exponent / 2 = 0 then result else powerUpTo bits result (base * base) (exponent / 2)

structure Profile where
  segmentLength : Float32
  /-- The factor from the length at one depth to that at the next. -/
  lengthDecay : Float32
  /-- The greatest tilt of a branch away from its parent, in radians. -/
  spread : Float32
  continueWeight : Float
  forkWeight : Float
  budWeight : Float
  branchProbability : Float
  leafProbability : Float
  leafSize : Float32
  leafColor : Vec3 Float32
deriving DecidableEq

namespace Profile

/-- A young upright plant: long segments, narrow spread, few forks. -/
def sapling : Profile where
  segmentLength := 1
  lengthDecay := 0.85
  spread := 0.5
  continueWeight := 3
  forkWeight := 1
  budWeight := 0.5
  branchProbability := 0.3
  leafProbability := 0.6
  leafSize := 0.3
  leafColor := ⟨0.25, 0.6, 0.2⟩

/-- A low bushy plant: short segments, wide spread, many forks. -/
def shrub : Profile where
  segmentLength := 0.6
  lengthDecay := 0.75
  spread := 1.1
  continueWeight := 1
  forkWeight := 2
  budWeight := 0.5
  branchProbability := 0.6
  leafProbability := 0.8
  leafSize := 0.2
  leafColor := ⟨0.2, 0.45, 0.15⟩

/-- The greatest depth that still shortens segments. -/
def deepestDecay : Nat := (1 <<< 31) - 1

/-- The length of a segment that a rule grows at a depth. -/
def segmentLengthAt (p : Profile) (depth : Nat) : Float32 :=
  p.segmentLength * powerUpTo 31 1 p.lengthDecay (min depth deepestDecay)

/-- The leaf: a square of two triangles that rises from its place along the second axis. -/
def leafBlade (p : Profile) : Mesh :=
  let h := p.leafSize * 0.5
  let s := p.leafSize
  { positions := [⟨-h, 0, 0⟩, ⟨h, 0, 0⟩, ⟨h, s, 0⟩, ⟨-h, s, 0⟩]
    normals := List.replicate 4 ⟨0, 0, 1⟩
    triangles := [(0, 1, 2), (0, 2, 3)]
    colors := List.replicate 4 p.leafColor
    shadeless := false }

end Profile

end Espalier
