import Espalier.Grammar.Segment
import Espalier.Grammar.Rule
import Espalier.Plant.Profile

/-!
# The plant grammar

Four rules. `trunk` grows a nearly upright segment. `branch` goes on with one slightly bent segment,
forks into two, or ends in a bud. `maybeBranch` sometimes grows a strongly tilted side segment.
`leaf` sometimes hangs a leaf. Each segment is sized for its depth and twisted at random.
-/

namespace Espalier.Profile

/-- The angle of a full turn. -/
def fullTurn : Float32 := Float32.ofBits 0x40c90fdb

/-- The part of the spread that a trunk may lean by. -/
def trunkLean : Float32 := 0.25

/-- A draw between `-amount` and `amount`. -/
def jitter (amount : Float32) : Build .edits Float32 :=
  Build.draw fun s => (s.unitSingle * 2 - 1) * amount

/-- Grows a segment of the length of its depth, twisted at random. -/
def sprout (p : Profile) (depth : Nat) (place : Point Float32) (tilt : Float32) :
    Build .edits (Point Float32) := do
  let twist ← Build.draw fun s => s.unitSingle * fullTurn
  Build.segment place (p.segmentLengthAt depth) twist tilt

/-! ## Bodies -/

/-- A nearly upright segment that branches. -/
def trunk (p : Profile) : Body := fun depth place => do
  let tilt ← jitter (p.spread * trunkLean)
  let tip ← p.sprout depth place tilt
  Build.schedule "branch" tip
  Build.schedule "maybeBranch" tip

/-- One slightly bent segment. -/
def extend (p : Profile) : Body := fun depth place => do
  let tilt ← jitter (p.spread * 0.5)
  let tip ← p.sprout depth place tilt
  Build.schedule "branch" tip
  Build.schedule "maybeBranch" tip
  Build.schedule "leaf" tip

/-- One of the two segments of a fork. -/
def forkSide (p : Profile) (side : Float32) : Body := fun depth place => do
  let amount ← Build.drawWithin 0.5 1
  let tip ← p.sprout depth place (side * p.spread * amount)
  Build.schedule "branch" tip
  Build.schedule "leaf" tip

def fork (p : Profile) : Body := fun depth place => do
  p.forkSide (-1) depth place
  p.forkSide 1 depth place

/-- No segment, but perhaps a leaf. -/
def bud : Body := fun _ place => Build.schedule "leaf" place

def sideBranch (p : Profile) : Body := fun depth place => do
  let amount ← Build.drawWithin 0.6 1
  let tip ← p.sprout depth place (p.spread * amount)
  Build.schedule "branch" tip

def leaf (p : Profile) : Body := fun _ place => do
  let _ ← Build.perform (.hang place p.leafBlade)

def definitions (p : Profile) : List Definition :=
  [.plain "trunk" p.trunk,
    .weighted "branch" p.continueWeight p.extend,
    .weighted "branch" p.forkWeight p.fork,
    .weighted "branch" p.budWeight bud,
    .maybe "maybeBranch" p.branchProbability p.sideBranch,
    .maybe "leaf" p.leafProbability p.leaf]

/-- The grammar of the plant. It is refused if a weight or a probability is out of range. -/
def grammar (p : Profile) : Except GrowthError Grammar := Grammar.ofDefinitions p.definitions

end Espalier.Profile
