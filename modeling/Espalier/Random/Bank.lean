import Espalier.Error
import Espalier.Random.Draw
import Espalier.Random.Text

/-!
# Banks of streams

Several streams, numbered in the order in which they came to be, and the requests they serve. A
request for many draws answers them in order; one that fails changes nothing.
-/

namespace Espalier

/-- What is asked of a stream of a bank. -/
inductive Request where
  | words (n : Nat)
  | singles (n : Nat)
  | doubles (n : Nat)
  | chances (p : Float) (n : Nat)
  | within (low high : Float32) (n : Nat)
  | picks (weights : List Float) (n : Nat)
  | skip (n : Nat)
  /-- Adds the child of the stream to the bank. -/
  | fork
  /-- Adds the stream itself to the bank. -/
  | copy
  | save
  /-- Replaces the stream by a saved one. -/
  | load (text : String)

/-- What a request is answered with. -/
inductive Answer where
  | words (ws : List UInt64)
  | singles (xs : List Float32)
  | doubles (xs : List Float)
  | decisions (bs : List Bool)
  | picks (is : List (Option Nat))
  | done
  /-- The number of the stream that was added. -/
  | added (index : Nat)
  | saved (text : String)
  | loaded
  /-- The text to load was that of no stream. -/
  | unreadable

namespace Stream

/-- The next `n` draws of one kind, each of one word, and the stream behind them. -/
def draws {β : Type} (draw : Stream → β) : Nat → Stream → List β × Stream
  | 0, s => ([], s)
  | n + 1, s =>
    let (xs, rest) := draws draw n s.advance
    (draw s :: xs, rest)

/-- The next `n` choices by weight, and the stream behind them. -/
def picks (weights : List Float) : Nat → Stream → List (Option Nat) × Stream
  | 0, s => ([], s)
  | n + 1, s =>
    let (i, s) := s.pick weights
    let (is, s) := picks weights n s
    (i :: is, s)

/-- A request to this stream alone: the answer, the stream behind it, and the stream that is added
to the bank, which then has number `count`. -/
def serve (count : Nat) (s : Stream) : Request → Except Failure (Answer × Stream × Option Stream)
  | .words n => let (xs, s) := s.draws output n; .ok (.words xs, s, none)
  | .singles n => let (xs, s) := s.draws unitSingle n; .ok (.singles xs, s, none)
  | .doubles n => let (xs, s) := s.draws unitDouble n; .ok (.doubles xs, s, none)
  | .chances p n => let (xs, s) := s.draws (chance p) n; .ok (.decisions xs, s, none)
  | .within low high n =>
    if n = 0 ∨ low < high then
      let (xs, s) := s.draws (within low high) n
      .ok (.singles xs, s, none)
    else .error (.fault .emptyInterval)
  | .picks weights n => let (is, s) := s.picks weights n; .ok (.picks is, s, none)
  | .skip n => .ok (.done, s.advanceBy n, none)
  | .fork => .ok (.added count, s.advance, some s.child)
  | .copy => .ok (.added count, s, some s)
  | .save => .ok (.saved s.toText, s, none)
  | .load text =>
    match ofText? text with
    | some s => .ok (.loaded, s, none)
    | none => .ok (.unreadable, s, none)

end Stream

abbrev Bank := Array Stream

namespace Bank

/-- Serves a request by the stream of the given number, if there is one. -/
def serve? (bank : Bank) (index : Nat) (request : Request) :
    Option (Except Failure (Answer × Bank)) :=
  bank[index]?.map fun s => do
    let (answer, s, added) ← s.serve bank.size request
    pure (answer, bank.setIfInBounds index s ++ added.toArray)

end Bank

end Espalier
