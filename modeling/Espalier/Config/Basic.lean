import Espalier.Cost.Guide
import Espalier.Error
import Espalier.Grammar.Segment
import Espalier.Plant.Profile
import Espalier.Search.Rounds

/-!
# Growth configurations

Everything that a run of guided growth depends on. `validate` says which configurations are
accepted; the first broken rule is reported, the candidate count before the guides, and of one guide
the multipliers before the offset.
-/

namespace Espalier

structure Config where
  seed : UInt64
  depth : UInt32
  rounds : UInt32
  /-- How many candidates each expansion is chosen from. -/
  candidates : Nat
  /-- How many open tips a round expands at most. -/
  maxTips : Nat
  plant : Profile
  guides : List Guide

namespace Config

/-- A guide straight up from the origin. -/
def defaultGuide : Guide where
  shape := .line .zero ⟨0, 10, 0⟩
  distanceMultiplier := (0, 0, 1)
  alignmentMultiplier := 10
  alignmentOffset := 0

/-- The configuration that a document changes. -/
def default : Config where
  seed := 42
  depth := 3
  rounds := 3
  candidates := 8
  maxTips := 6
  plant := .sapling
  guides := [defaultGuide]

/-! ## Validation -/

def hasFiniteMultipliers (g : Guide) : Bool :=
  let (c0, c1, c2) := g.distanceMultiplier
  g.alignmentMultiplier.isFinite && c0.isFinite && c1.isFinite && c2.isFinite

def hasOffsetInRange (g : Guide) : Bool :=
  (-1 : Float32) ≤ g.alignmentOffset && g.alignmentOffset ≤ 1

/-- What is wrong with the first faulty guide, numbered from `index` on. -/
def guidesCause? (index : Nat) : List Guide → Option ConfigCause
  | [] => none
  | g :: gs =>
    if !hasFiniteMultipliers g then some (.infiniteMultiplier index)
    else if !hasOffsetInRange g then some (.offsetOutOfRange index g.alignmentOffset)
    else guidesCause? (index + 1) gs

/-- What is wrong with a configuration. -/
def cause? (c : Config) : Option ConfigCause :=
  if c.candidates = 0 then some .noCandidates else guidesCause? 0 c.guides

/-- Accepts a configuration or says what is wrong with it. -/
def validate (c : Config) : Except GrowthError Unit :=
  match c.cause? with
  | none => .ok ()
  | some cause => .error (.config cause)

/-! ## The plan -/

def startRule : String := "trunk"

def continueRule : String := "branch"

/-- How the configured plant grows. -/
def plan (c : Config) : Plan where
  start := startRule
  continueWith := continueRule
  tipPoint := Build.tipName
  depth := c.depth
  rounds := c.rounds
  candidates := c.candidates
  maxTips := c.maxTips

end Config

end Espalier
