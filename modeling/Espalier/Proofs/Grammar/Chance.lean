import Espalier.Proofs.Grammar.Passage
import Espalier.Proofs.Grammar.Selection
import Espalier.Proofs.Random.Unit

/-!
# Decisions by chance

A rule with a probability draws one unit double and compares it with the probability. A unit double
is the word that the stream stands at, with the lower bits cut off and nothing rounded, and it is
below one. So there is no word for which a rule of probability one is skipped, and none for which a
rule of probability zero is applied.

Results:
1. `Rule.select_of_one_le`, `Rule.select_of_nonpos`: what such a rule chooses, on any stream.
2. `apply_certain`, `apply_impossible`: what becomes of a detail with such a rule.
3. `expand_certainties`: unit floats, decisions, and the rules of an expansion that are certain.
-/

namespace Espalier

variable {a : Access} {probability : Float} {body : Body a}

namespace Rule

theorem select_of_one_le (h : 1 ≤ probability) (s : Stream) :
    (maybe probability body).select s = (some body, s.advance) := by
  rw [select, Stream.chance_of_one_le h, if_pos rfl]

theorem select_of_nonpos (h : probability ≤ 0) (s : Stream) :
    (maybe probability body).select s = (none, s.advance) := by
  rw [select, Stream.chance_of_nonpos (.inl h), if_neg Bool.false_ne_true]

end Rule

namespace Grammar

variable {g : Grammar a} {p : Pending} {ground : Ground}

/-- A detail whose rule is certain is not skipped: its body is run, and ends well or fails. -/
theorem apply_certain (hrule : g.rule? p.rule = some (.maybe probability body))
    (h : 1 ≤ probability) (ground' : Ground) : g.apply p ground ≠ .ok none ground' := by
  intro hskipped
  obtain ⟨r, hr, hmisses⟩ := apply_trial hskipped
  rw [hrule] at hr
  cases hr
  rw [Trial.misses, Rule.select_of_one_le h] at hmisses
  cases hmisses

/-- A detail whose rule is impossible is skipped, and only the word of the draw is gone. -/
theorem apply_impossible (hrule : g.rule? p.rule = some (.maybe probability body))
    (h : probability ≤ 0) :
    g.apply p ground = .ok none { ground with stream := ground.stream.advance } := by
  simp only [apply, hrule, Rule.select_of_nonpos h]

/-- Unit floats are the upper 24 or 53 bits of the word, over two to the power of as many, and
nothing is rounded. So a unit double is one place below one at most. A decision is false for a
probability of zero or less and for no number, true for one of one or more, and between them it is
true for the words whose upper bits are below it; it always takes the one word.

So in every expansion, whether it ends well or fails: a detail that has come to the head of the
queue is not skipped if its rule has probability one, and is skipped, with the loss of its word, if
its rule has probability zero. In the report of an expansion that ends well, what is skipped are the
trials that miss, none of which is of the first kind, while all of the second are among them. -/
theorem expand_certainties :
    (∀ s : Stream,
      (s.unitSingle.isFinite ∧ singleValue s.unitSingle = ((s.output >>> 40).toNat : ℚ) / 2 ^ 24 ∧
        0 ≤ s.unitSingle ∧ s.unitSingle < 1) ∧
      (s.unitDouble.isFinite ∧ doubleValue s.unitDouble = ((s.output >>> 11).toNat : ℚ) / 2 ^ 53 ∧
        0 ≤ s.unitDouble ∧ s.unitDouble < 1 ∧ doubleValue s.unitDouble ≤ 1 - 1 / 2 ^ 53) ∧
      ∀ p : Float,
        (p ≤ 0 ∨ p.isNaN → s.chance p = false) ∧
        (1 ≤ p → s.chance p = true) ∧
        (0 ≤ p → p ≤ 1 →
          (s.chance p = true ↔ ((s.output >>> 11).toNat : ℚ) < doubleValue p * 2 ^ 53)) ∧
        ∀ count n, s.serve count (.chances p n) =
          .ok (.decisions ((List.range n).map fun i => (s.advanceBy i).chance p), s.advanceBy n,
            none)) ∧
    ∀ (a : Access) (g : Grammar a) (x : Expansion) (ground : Ground),
      (∀ passes ground₁ p behind probability body,
        g.Passes x.depth.toNat (x.line ground) passes ⟨p :: behind, ground₁⟩ →
        g.rule? p.rule = some (.maybe probability body) →
        (1 ≤ probability → ∀ ground₂, g.apply p ground₁ ≠ .ok none ground₂) ∧
        (probability ≤ 0 →
          g.apply p ground₁ = .ok none { ground₁ with stream := ground₁.stream.advance })) ∧
      ∀ report ground', g.expand x ground = .ok report ground' →
        let tried := g.trials x.first (x.depth.toNat + 1) ground
        tried.length = report.applied + report.skipped ∧
        report.skipped = tried.countP Trial.misses ∧
        ∀ t ∈ tried, ∀ probability body, t.rule = .maybe probability body →
          (1 ≤ probability → ¬t.misses) ∧ (probability ≤ 0 → t.misses) := by
  refine ⟨fun s => ⟨?_, ?_, fun p => ?_⟩, fun a g x ground => ⟨?_, fun report ground' h => ?_⟩⟩
  · obtain ⟨hfinite, hvalue⟩ := s.unitSingle_exact
    exact ⟨hfinite, hvalue, s.unitSingle_in_unit⟩
  · obtain ⟨hfinite, hvalue⟩ := s.unitDouble_exact
    obtain ⟨hlow, hhigh⟩ := s.unitDouble_in_unit
    exact ⟨hfinite, hvalue, hlow, hhigh, s.unitDouble_bounds.2⟩
  · refine ⟨Stream.chance_of_nonpos, Stream.chance_of_one_le, Stream.chance_iff,
      fun count n => ?_⟩
    rw [Stream.serve, Stream.draws_eq]
  · intro passes ground₁ p behind probability body _ hrule
    exact ⟨fun hone => apply_certain hrule hone, apply_impossible hrule⟩
  · obtain ⟨hlength, hskipped⟩ := expand_trials h
    refine ⟨hlength, hskipped, ?_⟩
    rintro ⟨r, s⟩ - probability body rfl
    constructor
    · intro hone
      rw [Trial.misses, Rule.select_of_one_le hone]
      exact Bool.false_ne_true
    · intro hzero
      rw [Trial.misses, Rule.select_of_nonpos hzero]
      rfl

end Grammar

end Espalier
