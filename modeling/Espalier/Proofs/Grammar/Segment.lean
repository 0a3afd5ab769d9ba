import Espalier.Grammar.Segment
import Espalier.Proofs.Grammar.Tending
import Espalier.Proofs.Scalar.Exact
import Espalier.Proofs.Scene.Graft

/-!
# Growing one segment

A segment is put at its place before it is turned, while its rotation is still the identity, and the
turns leave it there. So its origin is exactly at the place, whatever its length and its angles are,
and they may be no numbers at all: where no direction is defined, the segment is not turned.

Results:
1. `stuckPosition_identity`: the frame of a new node is moved to the target itself.
2. `segment_grafts`: what a segment adds to a scene, but for its rotation.
3. `addSegment_ok`: the same for a segment that is grown on a scene alone.
-/

namespace Espalier

/-- A node in the identity frame whose origin is to fall on a position is moved to that position:
the identity rotates zero to zero, and zero is taken away exactly. -/
theorem Transform.stuckPosition_identity (v : Vec3 Float32) :
    (identity : Transform Float32).stuckPosition .zero v = v := by
  have horigin : (identity : Transform Float32).rotation.rotate
      ((identity : Transform Float32).scale * .zero) = .zero := by
    decide +kernel
  rw [stuckPosition, horigin]
  show (⟨v.x - 0, v.y - 0, v.z - 0⟩ : Vec3 Float32) = v
  rw [single_sub_zero, single_sub_zero, single_sub_zero]

/-- The end of a segment in its own frame. -/
def segmentTip (length : Float32) : Vec3 Float32 := length • .axisY

/-- A segment at a place, somehow turned. -/
def Node.segment (place : Point Float32) (length : Float32) (rotation : Quat Float32) :
    Node Float32 :=
  { isolated .structural ⟨place.position, rotation, .splat 1⟩ with
    parent := some place.node
    points := [(Build.baseName, .zero), (Build.tipName, segmentTip length)] }

namespace Build

variable {known : String → Bool} {level : Nat} {w : Workspace}

/-- A node turns, with any of its own positions grabbed, and forgets what it held. -/
theorem ends_swing {β : Type} {s : Scene Float32} {n : Node Float32}
    (hw : Scene.Grafted s n w.scene) {a : Anchor Float32} (ha : a.IsOwn s.size) (v : Vec3 Float32)
    {f : Unit → Build .edits β} {Q : β → Workspace → Prop}
    (hrest : ∀ s' rotation,
      Scene.Grafted s { n.rotated rotation with held := none, grabbed := none } s' →
        Ends ((f ()).run known level (w.withScene s')) Q) :
    Ends ((do
      perform (.grab s.size a)
      perform (.aim s.size (.here v))
      let r ← perform (.release s.size)
      f r).run known level w) Q := by
  obtain ⟨s₁, hgrab, h₁⟩ := hw.grab_ok ha
  obtain ⟨s₂, rotation, haim, h₂⟩ := h₁.aim_ok (a := .here v) rfl trivial
  obtain ⟨s₃, hrelease, h₃⟩ := h₂.release_ok
  exact ends_perform hgrab (ends_perform haim (ends_perform hrelease (hrest s₃ rotation h₃)))

/-- A segment is grown at any point of the scene, whatever its length and its angles are. Nothing
but the scene changes, and its tip is answered. -/
theorem segment_grafts (hf : Scene.Forest w.scene) {place : Point Float32}
    (hplace : w.scene.contains place.node) (length twist tilt : Float32) :
    Ends ((segment place length twist tilt).run known level w) fun tip w' =>
      tip = ⟨w.scene.size, segmentTip length⟩ ∧ ∃ s' rotation, w' = w.withScene s' ∧
        Scene.Grafted w.scene (.segment place length rotation) s' := by
  obtain ⟨s₁, hadd, h₁⟩ := Scene.add_ok w.scene .identity
  obtain ⟨s₂, hbase, h₂⟩ := h₁.register_ok baseName (by rfl) .zero
  obtain ⟨s₃, htip, h₃⟩ := h₂.register_ok tipName (by rfl) (segmentTip length)
  obtain ⟨s₄, hjoin, h₄⟩ := h₃.join_ok hf hplace rfl .zero
  have hnode : Scene.Grafted w.scene (.segment place length .identity) s₄ := by
    simp only [Node.stuck, Node.isolated, Transform.stuckPosition_identity] at h₄
    exact h₄
  obtain ⟨s₅, hhold, h₅⟩ := hnode.hold_ok (a := .point ⟨w.scene.size, segmentTip length⟩) rfl
  rw [segment]
  refine ends_perform hadd <| ends_perform hbase <| ends_perform htip <| ends_perform hjoin <|
    ends_perform hhold ?_
  -- The node that is twisted, and maybe tilted, hangs already.
  refine ends_swing (a := .here .axisX) h₅ trivial _ fun s₆ rotation h₆ => ?_
  split
  · refine ends_swing h₆ ?_ _ fun s₇ rotation' h₇ => ?_
    · exact rfl
    · exact ends_pure ⟨rfl, s₇, rotation', rfl, h₇⟩
  · exact ends_pure ⟨rfl, s₆, rotation, rfl, h₆⟩

end Build

/-- A segment can be added at any point of a forest. -/
theorem Scene.addSegment_ok {s : Scene Float32} (hf : Forest s) {place : Point Float32}
    (hplace : s.contains place.node) (length twist tilt : Float32) :
    ∃ s' rotation, addSegment place length twist tilt s = .ok ⟨s.size, segmentTip length⟩ s' ∧
      Grafted s (.segment place length rotation) s' := by
  let w : Workspace := ⟨⟨s, .ofSeed 0, []⟩, []⟩
  have hsegment : Ends ((Build.segment place length twist tilt).run (fun _ => false) 0 w) _ :=
    Build.segment_grafts hf hplace length twist tilt
  obtain ⟨tip, w', hrun, rfl, s', rotation, rfl, hnode⟩ := hsegment
  refine ⟨s', rotation, ?_, hnode⟩
  rw [addSegment, Build.runOn, hrun]
  rfl

end Espalier
