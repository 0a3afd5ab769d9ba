import Espalier.Config.Decode
import Espalier.Cost.Session
import Espalier.Plant.Grammar
import Espalier.Scene.Drawing

/-!
# The command line

`CommandLine.run` does what the program does, but for reading files and printing: it loads the
configuration that `--config` names, lets other flags override it, grows the plant and sums it up.
A flag takes the argument behind its first occurrence; arguments that belong to no flag are passed
over.
-/

namespace Espalier

structure MeshSummary where
  node : NodeId
  world : Mat4 Float32

structure Summary where
  seed : UInt64
  nodes : Nat
  cost : Cost
  rounds : List RoundAccount
  bones : Nat
  meshes : List MeshSummary

namespace Config

/-- Grows the configured plant from a random stream, by a plan. -/
def grow (c : Config) (grammar : Grammar) (plan : Plan) : EStateM Failure Stream Growth :=
  plan.grow grammar (GuidedSession.ofGuides c.guides)

end Config

namespace CommandLine

/-- The argument behind the first occurrence of a flag, if the flag occurs. -/
def value? (args : List String) (flag : String) : Except GrowthError (Option String) :=
  match args.dropWhile (· ≠ flag) with
  | [] => .ok none
  | [_] => .error (.config (.missingValue flag))
  | _ :: value :: _ => .ok (some value)

/-- The digits of a decimal number below `bound`, behind a plus sign or not. -/
def count? (bound : Nat) (text : String) : Option Nat :=
  let cs := match text.toList with
    | '+' :: cs => cs
    | cs => cs
  match Json.Number.digits cs with
  | (d :: ds, []) => (some (Json.Number.natOfDigits (d :: ds))).filter (· < bound)
  | _ => none

/-- The number behind a flag, if the flag occurs. -/
def number? (args : List String) (flag : String) (bound : Nat) :
    Except GrowthError (Option Nat) := do
  match ← value? args flag with
  | none => pure none
  | some text =>
    match count? bound text with
    | some n => pure (some n)
    | none => throw (.config (.invalidValue flag text))

/-- The configuration that `--config` names, or the default one. `read` gives the text of a file or
the reason why there is none. -/
def baseConfig (args : List String) (read : String → Except String String) :
    Except GrowthError Config := do
  match ← value? args "--config" with
  | none => pure .default
  | some path =>
    match read path with
    | .ok text => Config.ofText text
    | .error reason => throw (.config (.unreadable path reason))

/-- The configuration with the overrides of the other flags. -/
def override (args : List String) (c : Config) : Except GrowthError Config := do
  let seed ← number? args "--seed" UInt64.size
  let depth ← number? args "--depth" UInt32.size
  let candidates ← number? args "--candidates" UInt64.size
  let rounds ← number? args "--rounds" UInt32.size
  pure
    { c with
      seed := (seed.map (·.toUInt64)).getD c.seed
      depth := (depth.map (·.toUInt32)).getD c.depth
      candidates := candidates.getD c.candidates
      rounds := (rounds.map (·.toUInt32)).getD c.rounds }

/-- Grows the configured plant and sums it up, with its bones if asked for. -/
def summarize (c : Config) (bones : Bool) : Except Failure Summary := do
  let grammar ← c.plant.grammar.mapError .error
  match c.grow grammar c.plan (.ofSeed c.seed) with
  | .error f _ => throw f
  | .ok growth _ =>
    let scene := growth.specimen.scene
    let drawing := scene.drawing bones
    pure
      { seed := c.seed
        nodes := scene.size
        cost := growth.specimen.cost
        rounds := growth.rounds
        bones := drawing.bones.length
        meshes := drawing.meshes.map fun m => ⟨m.node, m.world⟩ }

/-- Runs the program on its arguments. -/
def run (args : List String) (read : String → Except String String) : Except Failure Summary := do
  let c ← (baseConfig args read).mapError .error
  let c ← (override args c).mapError .error
  c.validate.mapError .error
  summarize c (args.contains "--bones")

end CommandLine

end Espalier
