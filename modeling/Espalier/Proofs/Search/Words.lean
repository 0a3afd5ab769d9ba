import Espalier.Proofs.Random.Nonzero
import Espalier.Proofs.Search.Bookkeeping

/-!
# Words that a search takes

A selection takes one word of its stream for each candidate, as the seed of the candidate's own
stream. What is drawn from that one, whether a candidate fails and which of them is kept leaves no
trace in the stream of the selection. So a run takes as many words as it grows candidates, and what
is drawn from the stream after the run depends on nothing else.

Results:
1. `Contest.final_select`: the stream behind a selection, also a failed one.
2. `turns_words`, `journalFrom_words`: the stream behind some turns and behind some rounds.
3. `grow_words`: the stream behind a run, by the account that the run gives.
-/

namespace Espalier

variable {σ : Type} {a : Access} [CostFunction σ]

/-- A selection takes one word for each candidate, whatever it comes to. -/
theorem Contest.final_select (c : Contest σ a) (count : Nat) (stream : Stream) :
    final (c.select count stream) = stream.advanceBy count := by
  unfold select
  split <;> rfl

namespace Plan

variable {plan : Plan} {grammar : Grammar a} {session : σ}

theorem turns_words {rule : String} {tips : List (Option NodeId)} {specimen : Specimen}
    {ts : List Turn} {stream stream' : Stream}
    (h : plan.turns grammar session rule tips specimen stream = .ok ts stream') :
    stream' = stream.advanceBy (plan.candidates * ts.length) := by
  induction tips generalizing specimen ts stream with
  | nil => cases h; rfl
  | cons tip tips ih =>
    obtain ⟨place, kept, stream₁, later, -, hselect, hlater, rfl⟩ := turns_cons_ok h
    have hfirst := (Contest.mk specimen grammar ⟨rule, plan.depth, place⟩ session).final_select
      plan.candidates stream
    rw [hselect, final] at hfirst
    rw [ih hlater, hfirst, ← Stream.advanceBy_add, List.length_cons, Nat.mul_succ, Nat.add_comm]

theorem journalFrom_words {remaining round : Nat} {tips : List (Option NodeId)}
    {specimen : Specimen} {rs : List Round} {stream stream' : Stream}
    (h : plan.journalFrom grammar session remaining round tips specimen stream = .ok rs stream') :
    stream' = stream.advanceBy (plan.candidates * (rs.map (·.turns.length)).sum) := by
  induction remaining generalizing round tips specimen rs stream with
  | zero => cases h; rfl
  | succ remaining ih =>
    cases tips with
    | nil => cases h; rfl
    | cons tip tips =>
      obtain ⟨r, stream₁, later, -, -, hturns, hlater, rfl⟩ := journalFrom_cons_ok h
      rw [ih hlater, turns_words hturns, ← Stream.advanceBy_add, ← Nat.mul_add, List.map_cons,
        List.sum_cons]

/-- Every selection, also a failed one, leaves its stream as if it had been forked once for each
candidate: one word further on for each, and not for what the candidates draw. So a run that ends
well has taken one word for each candidate of each of its expansions. -/
theorem grow_words (plan : Plan) (grammar : Grammar a) (session : σ) :
    (∀ (c : Contest σ a) (count : Nat) (stream : Stream),
      final (c.select count stream) = (stream.draws Stream.child count).2 ∧
      final (c.select count stream) = stream.advanceBy count) ∧
    ∀ (stream stream' : Stream) (growth : Growth),
      plan.grow grammar session stream = .ok growth stream' →
      stream' = stream.advanceBy (plan.candidates * (growth.rounds.map (·.expansions)).sum) := by
  refine ⟨fun c count stream => ?_, fun stream stream' growth h => ?_⟩
  · rw [c.final_select, Stream.draws_snd]
    exact ⟨rfl, rfl⟩
  · obtain ⟨rs, hjournal, rfl⟩ := journal_of_grow h
    rw [journalFrom_words hjournal, Growth.ofRounds, List.map_map]
    rfl

theorem grow_words_twice : ∃ growth,
    twice.grow twin (GuidedSession.ofGuides []) (.ofSeed 0) =
      .ok growth (.advanceBy 3 (.ofSeed 0)) ∧
    growth.rounds.map (·.expansions) = [1, 2] := by
  obtain ⟨ts, stream₁, ts', stream', hfirst, hnext, hsecond⟩ := twice_turns
  have hjournal : twice.journal twin (GuidedSession.ofGuides []) (.ofSeed 0) =
      .ok [⟨0, ts, _⟩, ⟨1, ts', _⟩] stream' :=
    journalFrom_cons hfirst (by rw [hnext]; exact journalFrom_cons hsecond rfl)
  have hgrow := grow_of_journal hjournal
  have hlengths : [ts.length, ts'.length] = [1, 2] := by
    rw [turns_length hfirst, turns_length hsecond]
    rfl
  obtain ⟨-, hwords⟩ := grow_words twice twin (GuidedSession.ofGuides [])
  have hstream : stream' = Stream.advanceBy (1 * [ts.length, ts'.length].sum) (.ofSeed 0) :=
    hwords _ _ _ hgrow
  rw [hlengths] at hstream
  subst hstream
  exact ⟨_, hgrow, hlengths⟩

end Plan

end Espalier
