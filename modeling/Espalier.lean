import Espalier.Grammar.Script
import Espalier.Main
import Espalier.Proofs.CommandLine.Run
import Espalier.Proofs.Config.Members
import Espalier.Proofs.Cost.Coherence
import Espalier.Proofs.Cost.Nearest
import Espalier.Proofs.Cost.ScoringSet
import Espalier.Proofs.Curve.Line
import Espalier.Proofs.Curve.Projection
import Espalier.Proofs.Grammar.Chance
import Espalier.Proofs.Grammar.Deepest
import Espalier.Proofs.Grammar.Depth
import Espalier.Proofs.Plant.Nesting
import Espalier.Proofs.Plant.Scoring
import Espalier.Proofs.Plant.Segments
import Espalier.Proofs.Plant.Topology
import Espalier.Proofs.Random.Interval
import Espalier.Proofs.Random.Monotone
import Espalier.Proofs.Random.Saved
import Espalier.Proofs.Scene.Issue
import Espalier.Proofs.Scene.Leftover
import Espalier.Proofs.Scene.Preorder
import Espalier.Proofs.Scene.Refusal
import Espalier.Proofs.Scene.Residue
import Espalier.Proofs.Scene.Resolution
import Espalier.Proofs.Search.Lookup
import Espalier.Proofs.Search.Pool
import Espalier.Proofs.Search.Words
