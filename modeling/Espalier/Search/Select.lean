import Espalier.Cost.Basic
import Espalier.Grammar.Expand

/-!
# Selection

Several candidates are grown from one specimen, each with a random stream of its own, and the
cheapest is kept. The streams are made first, in order, so one candidate's draws do not touch
another's; the candidates are independent and could be grown in any order.
-/

namespace Espalier

/-- A scored candidate. -/
structure Candidate where
  index : Nat
  specimen : Specimen
  report : Report

/-- How candidates are grown: from which specimen, by which rules, where, and scored by what. -/
structure Contest (σ : Type) (a : Access := .edits) where
  base : Specimen
  grammar : Grammar a
  expansion : Expansion
  session : σ

namespace Contest

variable {σ : Type} {a : Access} [CostFunction σ]

/-- Grows and scores the candidate of a stream. -/
def candidate (c : Contest σ a) (index : Nat) (stream : Stream) : Except Failure Candidate :=
  match c.grammar.expand c.expansion ⟨c.base.scene, stream, []⟩ with
  | .error f _ => .error f
  | .ok report ground =>
    let specimen : Specimen := ⟨ground.scene, c.base.cost⟩
    let (cost, _) := CostFunction.score (CostFunction.fresh c.session) specimen report.created
    .ok ⟨index, ⟨ground.scene, cost⟩, report⟩

/-- Grows and scores the candidates of some streams, numbered from `index` on. -/
def candidates (c : Contest σ a) : (index : Nat) → List Stream → List (Except Failure Candidate)
  | _, [] => []
  | index, s :: ss => c.candidate index s :: candidates c (index + 1) ss

end Contest

namespace Candidate

/-- What the candidate is compared by. -/
def total (c : Candidate) : Float := c.specimen.cost.total

/-- The cheaper of two candidates. The first stays unless the second is strictly cheaper. -/
def cheaper (best next : Candidate) : Candidate := if next.total < best.total then next else best

/-- The first fault among some outcomes. -/
def fault? : List (Except Failure Candidate) → Option Fault
  | [] => none
  | .error (.fault f) :: _ => some f
  | _ :: rest => fault? rest

/-- The candidates, unless one of them failed; the first failure counts. -/
def all? : List (Except Failure Candidate) → Except Failure (List Candidate)
  | [] => .ok []
  | .error f :: _ => .error f
  | .ok c :: rest => (all? rest).map (c :: ·)

/-- The cheapest of some outcomes. A fault of any candidate is that of the selection. -/
def best (outcomes : List (Except Failure Candidate)) : Except Failure Candidate :=
  match fault? outcomes with
  | some f => .error (.fault f)
  | none =>
    match all? outcomes with
    | .error f => .error f
    | .ok [] => .error (.error (.config .emptySelection))
    | .ok (first :: rest) => .ok (rest.foldl cheaper first)

end Candidate

/-- Grows `count` candidates and answers the cheapest, of equally cheap ones the first. -/
def Contest.select {σ : Type} {a : Access} [CostFunction σ] (c : Contest σ a) (count : Nat) :
    EStateM Failure Stream Candidate := fun stream =>
  match Candidate.best (c.candidates 0 (stream.children count)) with
  | .ok best => .ok best (stream.advanceBy count)
  | .error f => .error f (stream.advanceBy count)

end Espalier
