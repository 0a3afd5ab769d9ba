import Espalier.Scene.Basic

/-!
# Costs

What a grown scene is charged. A cost function scores the nodes that the latest expansion added, on
top of the cost of the scene so far. It may keep a state of its own while one scene grows; a session
is that state, and `fresh` starts it anew.
-/

namespace Espalier

/-- What was charged so far, and an estimate of what is still to come. -/
structure Cost where
  real : Float
  heuristic : Float
deriving DecidableEq

namespace Cost

def zero : Cost := ⟨0, 0⟩

/-- What candidates are compared by. -/
def total (c : Cost) : Float := c.real + c.heuristic

instance : Add Cost := ⟨fun a b => ⟨a.real + b.real, a.heuristic + b.heuristic⟩⟩

end Cost

/-- A scene with its cost so far. -/
structure Specimen where
  scene : Scene Float32
  cost : Cost

namespace Specimen

/-- A scene that was not charged yet. -/
def ofScene (scene : Scene Float32) : Specimen := ⟨scene, .zero⟩

end Specimen

/-- Sessions of a cost function. -/
class CostFunction (σ : Type) where
  /-- The cost of a specimen after the given nodes were added to it, and the session behind it. -/
  score : (session : σ) → Specimen → (added : List NodeId) → Cost × σ
  /-- The session that starts anew. -/
  fresh : σ → σ

end Espalier
