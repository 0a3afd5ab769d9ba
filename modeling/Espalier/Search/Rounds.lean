import Espalier.Search.Select

/-!
# Guided growth

A specimen grows in rounds. The first round expands a start rule at the root of an empty scene; each
later one expands another rule at the open tips that the round before created. Every expansion is
the cheapest of several candidates.
-/

namespace Espalier

/-- How a specimen is to grow. -/
structure Plan where
  start : String
  continueWith : String
  /-- The name of the point where growth can go on. -/
  tipPoint : String
  depth : UInt32
  rounds : UInt32
  candidates : Nat
  /-- How many open tips a round expands at most. -/
  maxTips : Nat

/-- The account of a round. -/
structure RoundAccount where
  round : Nat
  expansions : Nat
  nodesCreated : Nat
  cost : Cost

/-- A grown specimen and the account of its rounds. -/
structure Growth where
  specimen : Specimen
  rounds : List RoundAccount

namespace Scene

/-- Whether growth can go on at a node: it is structural, has the point, and no structural child. -/
def canGrowAt (s : Scene Float32) (tipPoint : String) (id : NodeId) : Bool :=
  s.isStructural id && ((s.node id).point? tipPoint).isSome &&
    !(s.children id).any s.isStructural

/-- The nodes among some where growth can go on. -/
def growingTips (s : Scene Float32) (created : List NodeId) (tipPoint : String) : List NodeId :=
  created.filter (s.canGrowAt tipPoint)

end Scene

namespace Plan

variable {σ : Type} {a : Access} [CostFunction σ]

/-- Where an expansion starts: at the root, or at the point of a tip. -/
def place (plan : Plan) (scene : Scene Float32) : Option NodeId →
    Except Failure (Option (Point Float32))
  | none => .ok none
  | some tip => (scene.point tip plan.tipPoint).map some

/-- Expands a rule at each place in turn. Answers the specimen and all nodes created. -/
def expandAll (plan : Plan) (grammar : Grammar a) (session : σ) (rule : String) :
    (tips : List (Option NodeId)) → Specimen → EStateM Failure Stream (Specimen × List NodeId)
  | [], specimen => pure (specimen, [])
  | tip :: tips, specimen => do
    match plan.place specimen.scene tip with
    | .error f => throw f
    | .ok place =>
      let best ← (Contest.mk specimen grammar ⟨rule, plan.depth, place⟩ session).select
        plan.candidates
      let (specimen, created) ← plan.expandAll grammar session rule tips best.specimen
      return (specimen, best.report.created ++ created)

/-- Grows for the remaining rounds, as long as there are tips to expand. -/
def growRounds (plan : Plan) (grammar : Grammar a) (session : σ) :
    (remaining : Nat) → (round : Nat) → (tips : List (Option NodeId)) → Specimen →
    EStateM Failure Stream Growth
  | 0, _, _, specimen => pure ⟨specimen, []⟩
  | _ + 1, _, [], specimen => pure ⟨specimen, []⟩
  | remaining + 1, round, tip :: tips, specimen => do
    let rule := if round = 0 then plan.start else plan.continueWith
    let (specimen, created) ← plan.expandAll grammar session rule (tip :: tips) specimen
    let summary : RoundAccount :=
      ⟨round, (tip :: tips).length, created.length, specimen.cost⟩
    let next := (specimen.scene.growingTips created plan.tipPoint).take plan.maxTips
    let growth ← plan.growRounds grammar session remaining (round + 1) (next.map some) specimen
    return { growth with rounds := summary :: growth.rounds }

/-- Grows a specimen from an empty scene. -/
def grow (plan : Plan) (grammar : Grammar a) (session : σ) : EStateM Failure Stream Growth :=
  plan.growRounds grammar session plan.rounds.toNat 0 [none] (.ofScene .empty)

end Plan

end Espalier
