import Espalier.Grammar.Rule
import Espalier.Grammar.Segment

/-!
# Scripted bodies

Rule bodies as lists of steps, for grammars that are data. Steps pass points through named
registers: each reads one as its point, and one with a result stores it in one. A register that was
never stored holds the point that the body runs at.
-/

namespace Espalier

namespace Script

/-- What a step does with its point. -/
inductive Act where
  | log (tag : String)
  | detail (rule : String)
  /-- Grows a segment, its tilt moved by a draw between two bounds if they are given. -/
  | segment (length twist tilt : Float32) (jitter : Option (Float32 × Float32))
  /-- Attaches a new node by a new point of it. -/
  | joint (name : String) (position : Vec3 Float32)
  | point (name : String) (position : Vec3 Float32)
  | look (name : String)
  /-- Hangs a leaf whose mesh has the given number of vertices. -/
  | hang (vertices : Nat) (shadeless : Bool)
  /-- Serves a request by the random stream and notes the answer. -/
  | draw (request : Request)

/-- An act, the register of its point, and the register of its result. -/
structure Step where
  act : Act
  source : String
  target : String

/-- The points stored so far, latest first. -/
abbrev Registers := List (String × Point Float32)

/-- A mesh of nothing but vertices at the origin. -/
def blankMesh (vertices : Nat) (shadeless : Bool) : Mesh :=
  ⟨List.replicate vertices .zero, [], [], [], shadeless⟩

/-- Performs an act at a point and answers its result, if it has one. -/
def Act.build (depth : Nat) (p : Point Float32) : Act → Build .edits (Option (Point Float32))
  | log tag => .note (.visited tag depth p) (pure none)
  | detail rule => do
    Build.schedule rule p
    return none
  | segment length twist tilt jitter => do
    let moved ← match jitter with
      | some (low, high) => Build.drawWithin low high
      | none => pure 0
    some <$> Build.segment p length twist (tilt + moved)
  | joint name position => do
    let node : NodeId ← Build.perform (.add .identity)
    let made : Point Float32 ← Build.perform (.register node name position)
    Build.perform (.join made p)
    return some made
  | point name position => do
    let made : Point Float32 ← Build.perform (.register p.node name position)
    return some made
  | look name => some <$> Build.look p.node name
  | hang vertices shadeless => do
    let leaf : NodeId ← Build.perform (.hang p (blankMesh vertices shadeless))
    return some (.origin leaf)
  | draw request => do
    let answer ← Build.serve request
    .note (.drew answer) (pure none)

def build (depth : Nat) (place : Point Float32) : Registers → List Step → Build .edits Unit
  | _, [] => pure ()
  | registers, step :: steps => do
    let p := (registers.lookup step.source).getD place
    match ← step.act.build depth p with
    | some result => build depth place ((step.target, result) :: registers) steps
    | none => build depth place registers steps

def body (steps : List Step) : Body := fun depth place => build depth place [] steps

end Script

end Espalier
