import Espalier.Grammar.Build

/-!
# Segments

A segment is a structural node of some length along its second axis, with a point `base` at its
origin and a point `tip` at its end. It is attached by its base, twisted about its long axis, and
tilted away from the direction of its parent.
-/

namespace Espalier

namespace Build

def baseName : String := "base"

def tipName : String := "tip"

/-- Grows a segment from a point and answers its tip. -/
def segment (place : Point Float32) (length twist tilt : Float32) :
    Build .edits (Point Float32) := do
  let node : NodeId ← perform (.add .identity)
  let base : Point Float32 ← perform (.register node baseName .zero)
  let tip : Point Float32 ← perform (.register node tipName (length • .axisY))
  perform (.join base place)
  -- Twist: with the tip held, the first axis swings.
  perform (.hold node (.point tip))
  perform (.grab node (.here .axisX))
  perform (.aim node (.here ⟨Scalar.cos twist, 0, Scalar.sin twist⟩))
  perform (.release node)
  -- Tilt: with nothing held, the tip swings.
  if tilt != 0 then
    perform (.grab node (.point tip))
    perform (.aim node (.here (length • ⟨Scalar.sin tilt, Scalar.cos tilt, 0⟩)))
    perform (.release node)
  return tip

/-- Performs a body on a scene alone: there are no rules to schedule, and the randomness is that of
seed zero. -/
def runOn {β : Type} (m : Build .edits β) : Scene.Action Float32 β := fun scene =>
  match m.run (fun _ => false) 0 ⟨⟨scene, .ofSeed 0, []⟩, []⟩ with
  | .ok value w => .ok value w.scene
  | .error f w => .error f w.scene

end Build

def Scene.addSegment (place : Point Float32) (length twist tilt : Float32) :
    Scene.Action Float32 (Point Float32) :=
  (Build.segment place length twist tilt).runOn

end Espalier
