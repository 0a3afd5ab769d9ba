import Espalier.Proofs.Random.Steps
import Mathlib.Data.Finite.Prod
import Mathlib.Data.Fintype.EquivFin

/-!
# Streams that never meet

Steps lose nothing, and there are only so many streams, so a step goes through all of them: every
stream comes right behind one other. Streams that differ then differ for good, as long as the same
number of words is drawn from each. This holds of the streams of different seeds too, which differ
from the start, since already their first words do.

Results:
1. `advance_bijective`: every stream comes behind exactly one stream.
2. `ofSeed_injective`, `words_nodup`: seeds give different streams, of four different words each.
3. `never_meet`: these, and that neither streams nor seeds ever meet.
-/

namespace Espalier.Stream

/-! ## Steps -/

instance : Finite Stream := by
  refine Finite.of_injective
    (fun s : Stream => (s.s0.toFin, s.s1.toFin, s.s2.toFin, s.s3.toFin)) ?_
  rintro ⟨a0, a1, a2, a3⟩ ⟨b0, b1, b2, b3⟩ h
  simpa [UInt64.toFin_inj] using h

/-- Every stream comes behind exactly one stream. -/
theorem advance_bijective : Function.Bijective advance :=
  Finite.injective_iff_bijective.mp advance_injective

theorem advanceBy_eq_iterate (n : Nat) : advanceBy n = advance^[n] := by
  induction n with
  | zero => rfl
  | succ n ih =>
    funext s
    rw [advanceBy, ih, Function.iterate_succ_apply]

theorem advanceBy_add (m n : Nat) (s : Stream) :
    advanceBy (m + n) s = advanceBy n (advanceBy m s) := by
  rw [Nat.add_comm, advanceBy_eq_iterate, advanceBy_eq_iterate, advanceBy_eq_iterate,
    Function.iterate_add_apply]

theorem advanceBy_injective (n : Nat) : Function.Injective (advanceBy n) := by
  rw [advanceBy_eq_iterate]
  exact advance_injective.iterate n

/-! ## Seeds -/

/-- The words of the state, in order. -/
def words (s : Stream) : List UInt64 := [s.s0, s.s1, s.s2, s.s3]

theorem ofSeed_injective : Function.Injective ofSeed := by
  intro seed seed' h
  have hfirst : mix (seed + seedStep) = mix (seed' + seedStep) := congrArg Stream.s0 h
  exact (UInt64.add_left_inj _).mp (mix_injective hfirst)

/-- The words of the state of a seed are mixed from different words. -/
theorem words_nodup (seed : UInt64) : (ofSeed seed).words.Nodup := by
  have hwords : (ofSeed seed).words =
      [seedStep, 2 * seedStep, 3 * seedStep, 4 * seedStep].map fun w => mix (seed + w) := rfl
  rw [hwords]
  refine List.Nodup.map (fun w w' h => ?_) (by decide)
  exact (UInt64.add_right_inj _).mp (mix_injective h)

/-- Streams never merge: a step is a bijection of all streams, the streams of different seeds are
different, and streams that differ still do after as many words of each. -/
theorem never_meet :
    Function.Bijective advance ∧
    Function.Injective ofSeed ∧ (∀ seed, (ofSeed seed).words.Nodup) ∧
    (∀ n, Function.Injective fun seed => (ofSeed seed).advanceBy n) ∧
    ∀ n, Function.Injective (advanceBy n) :=
  ⟨advance_bijective, ofSeed_injective, words_nodup,
    fun n => (advanceBy_injective n).comp ofSeed_injective, advanceBy_injective⟩

end Espalier.Stream
