import Espalier.Decimal.Layout

/-!
# Failures

An operation fails in one of two ways. A `GrowthError` is a broken precondition that the caller is
told about: an unknown rule, a point that is not there, a configuration out of range. A `Fault` is a
misuse that no operation answers to, such as the number of a node that was never created; it ends
the whole computation that contains it.
-/

namespace Espalier

/-- The number of a node in its scene, in creation order. -/
abbrev NodeId := Nat

/-- The node that an index from outside stands for. Indices count modulo `2^32`, which is more nodes
than a scene has room for. -/
def NodeId.ofIndex (index : Nat) : NodeId := index % UInt32.size

/-- What can be wrong with a growth configuration. -/
inductive ConfigCause where
  | malformed
  | noCandidates
  | emptySelection
  | infiniteMultiplier (guide : Nat)
  | offsetOutOfRange (guide : Nat) (offset : Float32)
  | unreadable (path reason : String)
  | missingValue (flag : String)
  | invalidValue (flag value : String)

/-- A broken precondition that the caller is told about. -/
inductive GrowthError where
  | pointNotFound (node : NodeId) (name : String)
  | unknownRule (rule : String)
  | grabRequired (node : NodeId)
  | selfAttachment (node : NodeId)
  | alreadyAttached (node : NodeId)
  | cycle (parent child : NodeId)
  | duplicatePoint (node : NodeId) (name : String)
  | duplicateRule (rule : String)
  | ruleKindConflict (rule : String)
  | invalidWeight (rule : String) (weight : Float)
  | invalidProbability (rule : String) (probability : Float)
  | singularTransform (node : NodeId)
  | config (cause : ConfigCause)

inductive ErrorKind where
  | notFound
  | preconditionViolation
  | nonInvertibleTransform
  | configuration
deriving DecidableEq

/-- A misuse that no error is reported for. -/
inductive Fault where
  | noSuchNode (node : NodeId)
  /-- A draw from an interval whose lower bound is not below the upper. -/
  | emptyInterval
  /-- A detail below the deepest level that can be numbered. -/
  | depthOverflow
deriving DecidableEq

inductive Failure where
  | error (e : GrowthError)
  | fault (f : Fault)

namespace ConfigCause

def message : ConfigCause → String
  | .malformed => "malformed document"
  | .noCandidates => "candidates must be at least 1"
  | .emptySelection => "candidate count must be at least 1"
  | .infiniteMultiplier guide => "guides[" ++ toString guide ++ "] has a non-finite multiplier"
  | .offsetOutOfRange guide offset =>
    "guides[" ++ toString guide ++ "].alignment_offset " ++ Layout.plain.single offset ++
      " is outside [-1, 1]"
  | .unreadable path reason => path ++ ": " ++ reason
  | .missingValue flag => flag ++ " needs a value"
  | .invalidValue flag value => flag ++ ": invalid value '" ++ value ++ "'"

end ConfigCause

namespace GrowthError

def nodeText (node : NodeId) : String := "Node(" ++ toString node ++ ")"

def message : GrowthError → String
  | .pointNotFound node name => "point '" ++ name ++ "' not found on " ++ nodeText node
  | .unknownRule rule => "unknown rule '" ++ rule ++ "'"
  | .grabRequired node => "point_at on " ++ nodeText node ++ " requires a prior grab"
  | .selfAttachment node =>
    "cannot attach a point to another point on the same node (" ++ nodeText node ++ ")"
  | .alreadyAttached node => nodeText node ++ " already has a parent"
  | .cycle parent child =>
    "attaching " ++ nodeText child ++ " under " ++ nodeText parent ++ " would create a cycle"
  | .duplicatePoint node name =>
    "point '" ++ name ++ "' is already registered on " ++ nodeText node
  | .duplicateRule rule => "rule '" ++ rule ++ "' is already registered"
  | .ruleKindConflict rule => "rule '" ++ rule ++ "' is registered with a different kind"
  | .invalidWeight rule weight =>
    "weight for rule '" ++ rule ++ "' must be finite and positive, got " ++
      Layout.plain.double weight
  | .invalidProbability rule probability =>
    "probability for rule '" ++ rule ++ "' must be within [0, 1], got " ++
      Layout.plain.double probability
  | .singularTransform node => "global transform of " ++ nodeText node ++ " is not invertible"
  | .config cause => "configuration error: " ++ cause.message

def kind : GrowthError → ErrorKind
  | .pointNotFound .. | .unknownRule _ => .notFound
  | .grabRequired _ | .selfAttachment _ | .alreadyAttached _ | .cycle .. | .duplicatePoint ..
  | .duplicateRule _ | .ruleKindConflict _ | .invalidWeight .. | .invalidProbability .. =>
    .preconditionViolation
  | .singularTransform _ => .nonInvertibleTransform
  | .config _ => .configuration

end GrowthError

end Espalier
