import Espalier.Json.Value
import Espalier.Random.Stream

/-!
# The text of a stream

A stream is saved as a JSON object whose one field `s` holds the four words. Reading takes every
text of such a record: other members are passed over, and the record may be written as an array.
-/

namespace Espalier.Stream

def toText (s : Stream) : String :=
  "\x7b\"s\":[" ++ ",".intercalate ([s.s0, s.s1, s.s2, s.s3].map fun w => Nat.repr w.toNat) ++
    "]\x7d"

def ofValue? (v : Json.Value) : Option Stream := do
  let fields ← v.fields? ["s"]
  match ← fields.get? "s" (Json.Value.list? Json.Value.word64?) with
  | [a, b, c, d] => some ⟨a, b, c, d⟩
  | _ => none

def ofText? (text : String) : Option Stream := (Json.Value.ofText? text).bind ofValue?

end Espalier.Stream
