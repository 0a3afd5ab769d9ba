import Espalier.Config.Basic
import Espalier.Json.Value

/-!
# Configuration documents

The configuration that a JSON document describes. A document names what it changes; the fields of a
plant, a guide and a curve are all required once one of these is named. Members with other names are
passed over, but a name must not come twice. A record may also be written as the array of its fields
in order.

A curve is tagged by its member `type`, which may stand anywhere. Since the tag may come last, the
whole curve is read before it is known what its members mean, so members that are passed over must
be strict values there (`Json.Value.isStrict`).
-/

namespace Espalier.Config

open Json (Value)

/-! ## Vectors -/

def triple? (v : Value) : Option (Float32 × Float32 × Float32) := do
  match ← v.list? Value.single? with
  | [a, b, c] => some (a, b, c)
  | _ => none

def vec3? (v : Value) : Option (Vec3 Float32) :=
  (triple? v).map fun (x, y, z) => ⟨x, y, z⟩

/-! ## Curves -/

/-- The kinds of curves, with their fields. -/
inductive CurveTag where
  | line
  | bezier

namespace CurveTag

def ofName? (name : String) : Option CurveTag :=
  if name = "line" then some line else if name = "cubic_bezier" then some bezier else none

/-- The names of the fields, in order. -/
def fieldNames : CurveTag → List String
  | line => ["start", "end"]
  | bezier => ["points"]

/-- The curve with the given fields. -/
def curve? (tag : CurveTag) (fields : Value.Fields) : Option (Curve Float32) :=
  match tag with
  | line => do
    some (.line (← fields.get? "start" vec3?) (← fields.get? "end" vec3?))
  | bezier => do
    match ← fields.get? "points" (Value.list? vec3?) with
    | [p0, p1, p2, p3] => some (.bezier p0 p1 p2 p3)
    | _ => none

end CurveTag

def curveTag? : Value → Option CurveTag
  | .string (some name) => CurveTag.ofName? name
  | _ => none

/-- How deep values may nest inside a curve. A document may nest 127 deep, and a curve is the fourth
level of its document. -/
def levelsInCurve : Nat := 123

/-- A curve, written as an object with the tag as a member or as an array with the tag in front. -/
def curve? : Value → Option (Curve Float32)
  | .object members => do
    guard (Value.haveStrict levelsInCurve members)
    match members.filter fun (k, _) => k = some "type" with
    | [(_, v)] =>
      let tag ← curveTag? v
      let fields ← Value.namedMembers? tag.fieldNames members
      tag.curve? fields
    | _ => none
  | .array (v :: items) => do
    let tag ← curveTag? v
    guard (Value.areStrict levelsInCurve items)
    let fields ← Value.fields? tag.fieldNames (.array items)
    tag.curve? fields
  | _ => none

/-! ## Records -/

def guideFields : List String :=
  ["shape", "distance_multiplier", "alignment_multiplier", "alignment_offset"]

def guide? (v : Value) : Option Guide := do
  let f ← v.fields? guideFields
  some
    { shape := ← f.get? "shape" curve?
      distanceMultiplier := ← f.get? "distance_multiplier" triple?
      alignmentMultiplier := ← f.get? "alignment_multiplier" Value.single?
      alignmentOffset := ← f.get? "alignment_offset" Value.single? }

def plantFields : List String :=
  ["segment_length", "length_decay", "spread", "continue_weight", "fork_weight", "bud_weight",
    "branch_probability", "leaf_probability", "leaf_size", "leaf_color"]

def plant? (v : Value) : Option Profile := do
  let f ← v.fields? plantFields
  some
    { segmentLength := ← f.get? "segment_length" Value.single?
      lengthDecay := ← f.get? "length_decay" Value.single?
      spread := ← f.get? "spread" Value.single?
      continueWeight := ← f.get? "continue_weight" Value.double?
      forkWeight := ← f.get? "fork_weight" Value.double?
      budWeight := ← f.get? "bud_weight" Value.double?
      branchProbability := ← f.get? "branch_probability" Value.double?
      leafProbability := ← f.get? "leaf_probability" Value.double?
      leafSize := ← f.get? "leaf_size" Value.single?
      leafColor := ← f.get? "leaf_color" vec3? }

def fieldNames : List String :=
  ["seed", "depth", "rounds", "candidates", "max_tips", "plant", "guides"]

/-- The configuration that a value describes. -/
def ofValue? (v : Value) : Option Config := do
  let f ← v.fields? fieldNames
  some
    { seed := ← f.getD? "seed" Value.word64? default.seed
      depth := ← f.getD? "depth" Value.word32? default.depth
      rounds := ← f.getD? "rounds" Value.word32? default.rounds
      candidates := ← f.getD? "candidates" (Value.count? UInt64.size) default.candidates
      maxTips := ← f.getD? "max_tips" (Value.count? UInt64.size) default.maxTips
      plant := ← f.getD? "plant" plant? default.plant
      guides := ← f.getD? "guides" (Value.list? guide?) default.guides }

/-- The configuration that a document describes, if it is accepted. -/
def ofText (text : String) : Except GrowthError Config :=
  match (Value.ofText? text).bind ofValue? with
  | none => .error (.config .malformed)
  | some c =>
    match c.validate with
    | .ok () => .ok c
    | .error e => .error e

end Espalier.Config
