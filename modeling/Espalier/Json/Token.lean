import Espalier.Json.Number

/-!
# Tokens of a JSON text

One pass over the characters. A string token says what the string spells, or that it spells nothing:
an escaped half of a surrogate pair without the other half is well formed as a token but stands for
no character.
-/

namespace Espalier.Json

/-- The text of a string; none if an escape names half of a pair on its own. -/
abbrev Text := Option String

/-- A token: a mark, or a value that is neither array nor object. -/
inductive Token where
  | openArray
  | closeArray
  | openObject
  | closeObject
  | comma
  | colon
  | null
  | bool (b : Bool)
  | number (n : Number)
  | string (t : Text)

namespace Token

/-- A piece of a string: a character as it stands, or a UTF-16 unit by its number. -/
inductive Piece where
  | char (c : Char)
  | unit (n : Nat)

/-- Joins the units of surrogate pairs and fails at a lone half. -/
def Piece.spell : List Piece → Option (List Char)
  | [] => some []
  | .char c :: ps => (spell ps).map (c :: ·)
  | .unit n :: .unit m :: ps =>
    if 0xd800 ≤ n ∧ n < 0xdc00 ∧ 0xdc00 ≤ m ∧ m < 0xe000 then
      (spell ps).map (Char.ofNat (0x10000 + (n - 0xd800) * 0x400 + (m - 0xdc00)) :: ·)
    else if 0xd800 ≤ n ∧ n < 0xe000 then none
    else (spell (.unit m :: ps)).map (Char.ofNat n :: ·)
  | .unit n :: ps =>
    if 0xd800 ≤ n ∧ n < 0xe000 then none else (spell ps).map (Char.ofNat n :: ·)

/-- The text of the pieces of a string, last piece first. -/
def Piece.text (reversed : List Piece) : Text := (spell reversed.reverse).map String.ofList

def hexDigit? (c : Char) : Option Nat :=
  if '0' ≤ c ∧ c ≤ '9' then some (c.toNat - '0'.toNat)
  else if 'a' ≤ c ∧ c ≤ 'f' then some (c.toNat - 'a'.toNat + 10)
  else if 'A' ≤ c ∧ c ≤ 'F' then some (c.toNat - 'A'.toNat + 10)
  else none

def unit? (a b c d : Char) : Option Piece :=
  match hexDigit? a, hexDigit? b, hexDigit? c, hexDigit? d with
  | some a, some b, some c, some d => some (.unit (((a * 16 + b) * 16 + c) * 16 + d))
  | _, _, _, _ => none

/-- The character of a one-letter escape. -/
def escape? : Char → Option Char
  | '"' => some '"'
  | '\\' => some '\\'
  | '/' => some '/'
  | 'b' => some '\x08'
  | 'f' => some '\x0c'
  | 'n' => some '\n'
  | 'r' => some '\r'
  | 't' => some '\t'
  | _ => none

/-- The four characters that may stand between tokens. -/
def isBlank (c : Char) : Bool := c = ' ' || c = '\n' || c = '\t' || c = '\r'

def mark? : Char → Option Token
  | '[' => some .openArray
  | ']' => some .closeArray
  | '\x7b' => some .openObject
  | '\x7d' => some .closeObject
  | ',' => some .comma
  | ':' => some .colon
  | _ => none

def word? (cs : List Char) : Option Token :=
  if cs = ['n', 'u', 'l', 'l'] then some .null
  else if cs = ['t', 'r', 'u', 'e'] then some (.bool true)
  else if cs = ['f', 'a', 'l', 's', 'e'] then some (.bool false)
  else none

/-- The token of a run of characters that stands neither for a string nor for a mark. -/
def ofRun? (cs : List Char) : Option Token :=
  match word? cs with
  | some t => some t
  | none => (Number.ofChars? cs).map .number

def cons? (t : Option Token) (ts : Option (List Token)) : Option (List Token) :=
  match t, ts with
  | some t, some ts => some (t :: ts)
  | _, _ => none

mutual

def ofChars? : List Char → Option (List Token)
  | [] => some []
  | c :: cs =>
    if isBlank c then ofChars? cs
    else if c = '"' then stringThen? [] cs
    else match mark? c with
      | some t => cons? (some t) (ofChars? cs)
      | none => runThen? [c] cs

/-- The tokens from the inside of a string on, whose pieces so far are given last first. -/
def stringThen? (pieces : List Piece) : List Char → Option (List Token)
  | [] => none
  | '"' :: cs => cons? (some (.string (Piece.text pieces))) (ofChars? cs)
  | '\\' :: 'u' :: a :: b :: c :: d :: cs =>
    match unit? a b c d with
    | some p => stringThen? (p :: pieces) cs
    | none => none
  | '\\' :: e :: cs =>
    match escape? e with
    | some c => stringThen? (.char c :: pieces) cs
    | none => none
  | c :: cs => if c < ' ' ∨ c = '\\' then none else stringThen? (.char c :: pieces) cs

/-- The tokens from the inside of a run on, whose characters so far are given last first. -/
def runThen? (run : List Char) : List Char → Option (List Token)
  | [] => cons? (ofRun? run.reverse) (some [])
  | c :: cs =>
    if isBlank c then cons? (ofRun? run.reverse) (ofChars? cs)
    else if c = '"' then cons? (ofRun? run.reverse) (stringThen? [] cs)
    else match mark? c with
      | some t => cons? (ofRun? run.reverse) (cons? (some t) (ofChars? cs))
      | none => runThen? (c :: run) cs

end

end Token

end Espalier.Json
