import Espalier.Random.Stream

/-!
# Draws

What one word of a stream is turned into: unit floats, floats of an interval, decisions, and choices
by weight. Each draw says what it is worth at the stream's position; but for `pick`, which may find
nothing to choose from, every draw takes exactly one word.
-/

namespace Espalier.Stream

/-- A single in `[0, 1)`, from the upper 24 bits. -/
def unitSingle (s : Stream) : Float32 := (s.output >>> 40).toFloat32 / (16777216 : UInt64).toFloat32

/-- A double in `[0, 1)`, from the upper 53 bits. -/
def unitDouble (s : Stream) : Float :=
  (s.output >>> 11).toFloat / (9007199254740992 : UInt64).toFloat

/-- A single between two bounds, the lower of which it can be. -/
def within (low high : Float32) (s : Stream) : Float32 := low + s.unitSingle * (high - low)

/-- True with probability `p`: never for `p ≤ 0`, always for `1 ≤ p`. -/
def chance (p : Float) (s : Stream) : Bool := s.unitDouble < p

/-! ## Choice by weight -/

/-- Only finite positive weights are ever chosen. -/
def isUsable (w : Float) : Bool := w.isFinite && (0 : Float) < w

theorem isUsable_iff {weight : Float} : isUsable weight ↔ weight.isFinite ∧ 0 < weight := by
  simp [isUsable]

/-- The sum of the usable weights. -/
def usableTotal (weights : List Float) : Float := (weights.filter isUsable).foldl (· + ·) 0

/-- The first usable weight that exceeds what the usable ones before it leave of `rest`. Rounding
can leave a sliver behind the last bucket; that goes to the last usable weight, kept in `last`. -/
def bucket (rest : Float) (last : Option Nat) (i : Nat) : List Float → Option Nat
  | [] => last
  | w :: ws =>
    if isUsable w then
      if rest < w then some i else bucket (rest - w) (some i) (i + 1) ws
    else bucket rest last (i + 1) ws

/-- An index with probability proportional to its weight, and the stream behind the draw. Without a
finite positive total there is none, and no word is taken. -/
def pick (weights : List Float) (s : Stream) : Option Nat × Stream :=
  let total := usableTotal weights
  if total.isFinite && (0 : Float) < total then
    (bucket (s.unitDouble * total) none 0 weights, s.advance)
  else (none, s)

end Espalier.Stream
