import Espalier.CommandLine
import Espalier.Json.Document

/-!
# The text of a run

What the program prints: a summary as JSON, or the reason why there is none.
-/

namespace Espalier

open Json (Document)

namespace Cost

def toDocument (c : Cost) : Document :=
  .object [("real_cost", .double c.real), ("heuristic_cost", .double c.heuristic)]

end Cost

namespace RoundAccount

def toDocument (r : RoundAccount) : Document :=
  .object
    [("round", .count r.round), ("expansions", .count r.expansions),
      ("nodes_created", .count r.nodesCreated), ("cost", r.cost.toDocument)]

end RoundAccount

namespace MeshSummary

def toDocument (m : MeshSummary) : Document :=
  .object [("node", .count m.node), ("world", .array (m.world.entries.map .single))]

end MeshSummary

namespace Summary

def toDocument (s : Summary) : Document :=
  .object
    [("seed", .count s.seed.toNat), ("nodes", .count s.nodes), ("cost", s.cost.toDocument),
      ("rounds", .array (s.rounds.map RoundAccount.toDocument)), ("bones", .count s.bones),
      ("geometry", .array (s.meshes.map MeshSummary.toDocument))]

end Summary

namespace Fault

def message : Fault → String
  | .noSuchNode node => GrowthError.nodeText node ++ " is not in the scene"
  | .emptyInterval => "the lower bound of a draw must be less than the upper"
  | .depthOverflow => "a detail is too deep to be numbered"

end Fault

namespace CommandLine

/-- What is printed on success or failure. -/
def report : Except Failure Summary → Except String String
  | .ok summary => .ok (summary.toDocument.pretty)
  | .error (.error e) => .error ("grow: " ++ e.message)
  | .error (.fault f) => .error ("grow: " ++ f.message)

end CommandLine

end Espalier
