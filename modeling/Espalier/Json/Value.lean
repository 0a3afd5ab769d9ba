import Espalier.Json.Token

/-!
# JSON values

`Value.ofText?` reads a whole text. The reader is a stack of open arrays and objects that moves over
the tokens, so nesting costs it nothing. A value keeps every member of an object in writing order,
the repeated ones too: what they mean is for the decoder to say.
-/

namespace Espalier.Json

inductive Value where
  | null
  | bool (b : Bool)
  | number (n : Number)
  | string (t : Text)
  | array (items : List Value)
  | object (members : List (Text × Value))

namespace Value

/-! ## Reading -/

/-- An open array or object, with what it holds so far, last first. -/
inductive Frame where
  | array (items : List Value)
  | object (members : List (Text × Value)) (key : Text)

mutual

/-- Reads on where a value has to start. -/
def expect? (stack : List Frame) : List Token → Option Value
  | .null :: ts => resume? stack .null ts
  | .bool b :: ts => resume? stack (.bool b) ts
  | .number n :: ts => resume? stack (.number n) ts
  | .string t :: ts => resume? stack (.string t) ts
  | .openArray :: .closeArray :: ts => resume? stack (.array []) ts
  | .openArray :: ts => expect? (.array [] :: stack) ts
  | .openObject :: .closeObject :: ts => resume? stack (.object []) ts
  | .openObject :: .string k :: .colon :: ts => expect? (.object [] k :: stack) ts
  | _ => none

/-- Reads on where a value has just ended. -/
def resume? (stack : List Frame) (v : Value) : List Token → Option Value
  | [] => if stack.isEmpty then some v else none
  | t :: ts =>
    match stack, t, ts with
    | .array vs :: stack, .comma, ts => expect? (.array (v :: vs) :: stack) ts
    | .array vs :: stack, .closeArray, ts => resume? stack (.array (v :: vs).reverse) ts
    | .object ms k :: stack, .comma, .string l :: .colon :: ts =>
      expect? (.object ((k, v) :: ms) l :: stack) ts
    | .object ms k :: stack, .closeObject, ts =>
      resume? stack (.object ((k, v) :: ms).reverse) ts
    | _, _, _ => none

end

def ofText? (text : String) : Option Value := (Token.ofChars? text.toList).bind (expect? [])

/-! ## Strict values -/

mutual

/-- Whether every string is text, every number is in range of a double, and arrays and objects nest
at most `levels` deep. -/
def isStrict (levels : Nat) : Value → Bool
  | .null => true
  | .bool _ => true
  | .number n => n.toDouble?.isSome
  | .string t => t.isSome
  | .array items => 0 < levels && areStrict (levels - 1) items
  | .object members => 0 < levels && haveStrict (levels - 1) members

def areStrict (levels : Nat) : List Value → Bool
  | [] => true
  | v :: vs => isStrict levels v && areStrict levels vs

def haveStrict (levels : Nat) : List (Text × Value) → Bool
  | [] => true
  | (k, v) :: ms => k.isSome && isStrict levels v && haveStrict levels ms

end

/-! ## Decoding -/

/-- The count that the value is, if it is below `bound`. -/
def count? (bound : Nat) : Value → Option Nat
  | .number n => n.count?.filter (· < bound)
  | _ => none

def word64? (v : Value) : Option UInt64 := (v.count? UInt64.size).map (·.toUInt64)

def word32? (v : Value) : Option UInt32 := (v.count? UInt32.size).map (·.toUInt32)

def single? : Value → Option Float32
  | .number n => n.toSingle?
  | _ => none

def double? : Value → Option Float
  | .number n => n.toDouble?
  | _ => none

def items? : Value → Option (List Value)
  | .array items => some items
  | _ => none

/-- The items of an array, each decoded. -/
def list? {β : Type} (item? : Value → Option β) (v : Value) : Option (List β) :=
  v.items?.bind fun items => items.mapM item?

/-- The fields of a record, by name. -/
abbrev Fields := List (String × Value)

/-- The members with one of the given names. Keys must be text, a name must not come twice, and
other members are passed over. -/
def namedMembers? (names : List String) (members : List (Text × Value)) : Option Fields := do
  let members ← members.mapM fun (k, v) => k.map (·, v)
  let named := members.filter fun (k, _) => names.contains k
  if (named.map (·.1)).Nodup then some named else none

/-- The fields of a record with the given field names: an object, or an array of the fields in
order, which may end early. -/
def fields? (names : List String) : Value → Option Fields
  | .object members => namedMembers? names members
  | .array items => if items.length ≤ names.length then some (names.zip items) else none
  | _ => none

def Fields.get? {β : Type} (fields : Fields) (name : String) (field? : Value → Option β) :
    Option β :=
  (fields.lookup name).bind field?

/-- The field of a name, decoded, or a default if it is missing. -/
def Fields.getD? {β : Type} (fields : Fields) (name : String) (field? : Value → Option β)
    (default : β) : Option β :=
  match fields.lookup name with
  | none => some default
  | some v => field? v

end Value

end Espalier.Json
