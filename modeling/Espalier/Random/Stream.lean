/-!
# Random streams

A stream of 64-bit words from four words of state (xoshiro256++), seeded through a mixing function
(SplitMix64). A stream is a value: its next word is `output`, and `advance` is the stream behind
that word. All randomness of the library is drawn from a stream that the caller passes in, so equal
seeds give equal results on every machine.
-/

namespace Espalier

structure Stream where
  s0 : UInt64
  s1 : UInt64
  s2 : UInt64
  s3 : UInt64
deriving DecidableEq

namespace Stream

/-- The word turned left by `n` bits, for `n` between 1 and 63. -/
def turnLeft (w n : UInt64) : UInt64 := (w <<< n) ||| (w >>> (64 - n))

/-- Mixes a word: every bit of the result depends on every bit of the word. -/
def mix (w : UInt64) : UInt64 :=
  let w := (w ^^^ (w >>> 30)) * 0xbf58476d1ce4e5b9
  let w := (w ^^^ (w >>> 27)) * 0x94d049bb133111eb
  w ^^^ (w >>> 31)

/-- The distance between the words that are mixed into the state. -/
def seedStep : UInt64 := 0x9e3779b97f4a7c15

def ofSeed (seed : UInt64) : Stream where
  s0 := mix (seed + seedStep)
  s1 := mix (seed + 2 * seedStep)
  s2 := mix (seed + 3 * seedStep)
  s3 := mix (seed + 4 * seedStep)

def output (s : Stream) : UInt64 := turnLeft (s.s0 + s.s3) 23 + s.s0

/-- The stream behind the next word. -/
def advance (s : Stream) : Stream :=
  let c := s.s2 ^^^ s.s0
  let d := s.s3 ^^^ s.s1
  { s0 := s.s0 ^^^ d
    s1 := s.s1 ^^^ c
    s2 := c ^^^ (s.s1 <<< 17)
    s3 := turnLeft d 45 }

/-- The stream behind the next `n` words. -/
def advanceBy : Nat → Stream → Stream
  | 0, s => s
  | n + 1, s => advanceBy n s.advance

/-- The stream that the next word seeds. The parent goes on at `advance`. -/
def child (s : Stream) : Stream := ofSeed s.output

/-- The streams that the next `n` words seed, in order. -/
def children : Nat → Stream → List Stream
  | 0, _ => []
  | n + 1, s => s.child :: children n s.advance

end Stream

end Espalier
