import Espalier.Decimal.Layout

/-!
# Writing JSON

A `Document` is JSON to be written, with its numbers laid out already. It is written on one line, or
over several lines, each level indented by two blanks.
-/

namespace Espalier.Json

/-- JSON to be written. -/
inductive Document where
  | null
  | bool (b : Bool)
  /-- A number, by its text. -/
  | number (text : String)
  | string (s : String)
  | array (items : List Document)
  | object (members : List (String × Document))
deriving Inhabited

namespace Document

/-! ## Leaves -/

def count (n : Nat) : Document := .number (toString n)

/-- A float with the given layout. A float that is no number is null. -/
def float (l : Layout) (f : FloatShape) : Document :=
  match f with
  | .nan | .infinite _ => .null
  | f => .number (l.write f)

def single (x : Float32) : Document := .float .summarySingle (.ofSingle x)

def double (x : Float) : Document := .float .summaryDouble (.ofDouble x)

def hex4 (n : Nat) : List Char :=
  [n / 4096 % 16, n / 256 % 16, n / 16 % 16, n % 16].map Nat.digitChar

/-- A character inside a string. -/
def escape (c : Char) : List Char :=
  if c = '"' then ['\\', '"']
  else if c = '\\' then ['\\', '\\']
  else if c = '\n' then ['\\', 'n']
  else if c = '\r' then ['\\', 'r']
  else if c = '\t' then ['\\', 't']
  else if c = '\x08' then ['\\', 'b']
  else if c = '\x0c' then ['\\', 'f']
  else if c < ' ' then '\\' :: 'u' :: hex4 c.toNat
  else [c]

def addQuoted (out s : String) : String :=
  (s.foldl (fun out c => (escape c).foldl String.push out) (out.push '"')).push '"'

/-! ## One line -/

mutual

/-- A text followed by the document on one line. -/
def addCompact (out : String) : Document → String
  | .null => out ++ "null"
  | .bool b => out ++ if b then "true" else "false"
  | .number text => out ++ text
  | .string s => addQuoted out s
  | .array items => (addItems (out.push '[') items).push ']'
  | .object members => (addMembers (out.push '\x7b') members).push '\x7d'

def addItems (out : String) : List Document → String
  | [] => out
  | [d] => addCompact out d
  | d :: ds => addItems ((addCompact out d).push ',') ds

def addMembers (out : String) : List (String × Document) → String
  | [] => out
  | [(k, d)] => addCompact ((addQuoted out k).push ':') d
  | (k, d) :: ms => addMembers ((addCompact ((addQuoted out k).push ':') d).push ',') ms

end

def compact (d : Document) : String := addCompact "" d

/-! ## Several lines -/

/-- A text followed by the start of a new line at a level. -/
def addLine (level : Nat) (out : String) : String :=
  (List.replicate (2 * level) ' ').foldl String.push (out.push '\n')

mutual

/-- A text followed by the document over several lines, on a level. -/
def addPretty (level : Nat) (out : String) : Document → String
  | .null => out ++ "null"
  | .bool b => out ++ if b then "true" else "false"
  | .number text => out ++ text
  | .string s => addQuoted out s
  | .array [] => out ++ "[]"
  | .array items => (addLine level (addItemLines (level + 1) (out.push '[') items)).push ']'
  | .object [] => out ++ "\x7b\x7d"
  | .object members =>
    (addLine level (addMemberLines (level + 1) (out.push '\x7b') members)).push '\x7d'

/-- A text followed by the items of an array, each on lines of its own. -/
def addItemLines (level : Nat) (out : String) : List Document → String
  | [] => out
  | [d] => addPretty level (addLine level out) d
  | d :: ds => addItemLines level ((addPretty level (addLine level out) d).push ',') ds

/-- A text followed by the members of an object, each on lines of its own. -/
def addMemberLines (level : Nat) (out : String) : List (String × Document) → String
  | [] => out
  | [(k, d)] => addPretty level (addQuoted (addLine level out) k ++ ": ") d
  | (k, d) :: ms =>
    addMemberLines level ((addPretty level (addQuoted (addLine level out) k ++ ": ") d).push ',') ms

end

def pretty (d : Document) : String := addPretty 0 "" d

end Document

end Espalier.Json
