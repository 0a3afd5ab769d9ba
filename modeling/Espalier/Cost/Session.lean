import Std.Data.TreeMap
import Std.Data.TreeSet
import Espalier.Cost.Basic
import Espalier.Cost.Guide
import Espalier.Precision
import Espalier.Scene.Frame

/-!
# Guided scoring

The cost function of a list of guides. It charges every structural node that was added, and every
structural node below such a node on structural ways, once: for the direction from its parent, and
for the distance of its parent from the nearest guide.

A session remembers where nodes are in space, since a scored node is taken to stay where it is.
-/

namespace Espalier

/-- What one node is charged. -/
structure Charge where
  alignment : Float32
  distance : Float32

namespace Charge

def total (c : Charge) : Float32 := c.alignment + c.distance

end Charge

/-- The guides, and the positions in space that were looked up so far. -/
structure GuidedSession where
  guides : List Guide
  positions : Std.TreeMap NodeId (Vec3 Float32)

namespace GuidedSession

/-- The session that has not looked up anything. -/
def ofGuides (guides : List Guide) : GuidedSession := ⟨guides, ∅⟩

/-- Where a node is in space. -/
def position (g : GuidedSession) (scene : Scene Float32) (id : NodeId) :
    Vec3 Float32 × GuidedSession :=
  match g.positions[id]? with
  | some p => (p, g)
  | none =>
    let p := scene.worldPosition id
    (p, { g with positions := g.positions.insert id p })

/-- What a node is charged. A node without parent is not, and without guides none is. -/
def charge? (g : GuidedSession) (scene : Scene Float32) (id : NodeId) :
    Option Charge × GuidedSession :=
  match scene.parent? id with
  | none => (none, g)
  | some parent =>
    let (here, g) := g.position scene id
    let (start, g) := g.position scene parent
    let direction := (here - start).normalizeOrZero
    let charge := (Guide.nearest? g.guides start).map fun (guide, projection) =>
      { alignment := guide.alignmentCharge (guide.tangent projection.t) direction
        distance := guide.distanceCharge projection.distance }
    (charge, g)

/-- Whether a pending node is passed over: a leaf, or a node that was charged already. -/
def passes (scene : Scene Float32) (seen : Std.TreeSet NodeId) (id : NodeId) : Bool :=
  !scene.isStructural id || seen.contains id

/-- Charges at most `steps` nodes of those pending and below them, each before its children. -/
def chargeAll (scene : Scene Float32) :
    (steps : Nat) → GuidedSession → (seen : Std.TreeSet NodeId) → (sum : Float) →
    (pending : List NodeId) → Float × GuidedSession
  | 0, g, _, sum, _ => (sum, g)
  | steps + 1, g, seen, sum, pending =>
    match pending.dropWhile (passes scene seen) with
    | [] => (sum, g)
    | id :: pending =>
      let (charge, g) := g.charge? scene id
      let sum := match charge with
        | some p => sum + widen p.total
        | none => sum
      chargeAll scene steps g (seen.insert id) sum (scene.children id ++ pending)

/-- The cost of a specimen after the given nodes were added. No more nodes are charged than there
are in the scene. -/
def score (g : GuidedSession) (specimen : Specimen) (added : List NodeId) : Cost × GuidedSession :=
  let scene := specimen.scene
  let (sum, g) := chargeAll scene scene.size g ∅ 0 added
  (⟨specimen.cost.real + sum, 0⟩, g)

/-- The session of the same guides that has not looked up anything. -/
def fresh (g : GuidedSession) : GuidedSession := ofGuides g.guides

instance : CostFunction GuidedSession := ⟨score, fresh⟩

end GuidedSession

end Espalier
