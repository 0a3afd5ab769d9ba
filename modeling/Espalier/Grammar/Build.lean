import Espalier.Random.Bank
import Espalier.Scene.Edit

/-!
# Rule bodies

A rule body is a program of a closed set of steps: edits and views of the scene, uses of the random
stream, details to schedule, and notes. What a body does is therefore a function of what these steps
answer, and every body ends. An edit or a detail that is refused answers with its error, which the
body may pass on or not; a fault ends the body.

A body holds its scene and its stream, and nothing forces it to leave the scene to the edits. So
there are two sorts of programs (`Access`): one that changes the scene by edits alone, and one that
may also put anything in the place of what it holds. What such a body consults or keeps besides can
be taken to stand in the notes. Both sorts schedule details by the same step.

`Build.run` performs a body on a `Workspace`. The body cannot see how deep details may go: it only
schedules them, and whoever runs it decides which are kept.
-/

namespace Espalier

/-- What a body leaves behind for an observer. -/
inductive Note where
  | visited (tag : String) (depth : Nat) (place : Point Float32)
  | drew (answer : Answer)

/-- What bodies work on: a scene and a random stream, and the notes so far, last first. -/
structure Ground where
  scene : Scene Float32
  stream : Stream
  notes : List Note

/-- What a program may do to its ground. -/
inductive Access where
  /-- Nothing but the steps that are made for it, so that the scene changes by edits. -/
  | edits
  /-- Anything. -/
  | free

/-- A program that builds structure and ends with a value. -/
inductive Build (a : Access) (β : Type) where
  | done (value : β)
  | stop (f : Failure)
  | edit (e : Edit Float32) (next : Except GrowthError e.Answer → Build a β)
  | view (next : Scene Float32 → Build a β)
  /-- Moves the stream on, and goes on with the stream as it was before. -/
  | random (move : Stream → Stream) (next : Stream → Build a β)
  /-- Puts any ground in the place of this one, and goes on with the ground as it was before. -/
  | replace (licence : a = .free) (move : Ground → Ground) (next : Ground → Build a β)
  /-- Schedules a rule at a point, one level deeper. -/
  | detail (rule : String) (place : Point Float32) (next : Except GrowthError Unit → Build a β)
  | note (n : Note) (next : Build a β)

namespace Build

variable {a : Access} {β γ : Type}

/-- Goes on with another program where the first ends. -/
def bind (m : Build a β) (f : β → Build a γ) : Build a γ :=
  match m with
  | done value => f value
  | stop failure => stop failure
  | edit e next => edit e fun r => (next r).bind f
  | view next => view fun s => (next s).bind f
  | random move next => random move fun s => (next s).bind f
  | replace licence move next => replace licence move fun g => (next g).bind f
  | detail rule place next => detail rule place fun r => (next r).bind f
  | note n next => note n (next.bind f)

instance : Monad (Build a) where
  pure := done
  bind := bind

def ofExcept : Except GrowthError β → Build a β
  | .ok value => done value
  | .error e => stop (.error e)

def perform (e : Edit Float32) : Build a e.Answer := edit e ofExcept

def schedule (rule : String) (place : Point Float32) : Build a Unit := detail rule place ofExcept

def draw (value : Stream → β) : Build a β := random Stream.advance fun s => done (value s)

/-- A single between two bounds. The lower bound must be below the upper. -/
def drawWithin (low high : Float32) : Build a Float32 :=
  if low < high then draw (Stream.within low high) else stop (.fault .emptyInterval)

/-- Serves a request by the stream. A child or a copy that it makes is dropped. -/
def serve (request : Request) : Build a Answer :=
  random
    (fun s => match s.serve 1 request with
      | .ok (_, s, _) => s
      | .error _ => s)
    (fun s => match s.serve 1 request with
      | .ok (answer, _, _) => done answer
      | .error f => stop f)

/-- The point of a node that is registered under a name. -/
def look (node : NodeId) (name : String) : Build a (Point Float32) :=
  view fun s =>
    match s.point node name with
    | .ok p => done p
    | .error f => stop f

end Build

/-! ## Running a body -/

/-- A rule to apply at a point. -/
structure Detail where
  rule : String
  place : Point Float32

/-- The ground of one body, and the details it has scheduled so far, last first. -/
structure Workspace extends Ground where
  scheduled : List Detail

/-- The deepest level that can be numbered. -/
def deepest : Nat := UInt32.size - 1

/-- Performs a body of a rule at the given depth, where `known` says which rules there are. -/
def Build.run {a : Access} {β : Type} (known : String → Bool) (depth : Nat) :
    Build a β → EStateM Failure Workspace β
  | done value, w => .ok value w
  | stop f, w => .error f w
  | edit e next, ⟨⟨scene, stream, notes⟩, scheduled⟩ =>
    match e.run scene with
    | .ok answer scene => (next (.ok answer)).run known depth ⟨⟨scene, stream, notes⟩, scheduled⟩
    | .error (.error err) scene =>
      (next (.error err)).run known depth ⟨⟨scene, stream, notes⟩, scheduled⟩
    | .error (.fault f) scene => .error (.fault f) ⟨⟨scene, stream, notes⟩, scheduled⟩
  | view next, w => (next w.scene).run known depth w
  | random move next, w => (next w.stream).run known depth { w with stream := move w.stream }
  | replace _ move next, w =>
    (next w.toGround).run known depth { w with toGround := move w.toGround }
  | detail rule place next, w =>
    if !known rule then (next (.error (.unknownRule rule))).run known depth w
    else if depth = deepest then .error (.fault .depthOverflow) w
    else (next (.ok ())).run known depth { w with scheduled := ⟨rule, place⟩ :: w.scheduled }
  | note n next, w => next.run known depth { w with notes := n :: w.notes }

end Espalier
