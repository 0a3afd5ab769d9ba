import Espalier.Cost.Session
import Espalier.Proofs.Grammar.Depth
import Espalier.Proofs.Scalar.Order
import Espalier.Proofs.Search.Least
import Espalier.Proofs.Search.Progress

/-!
# What a selection keeps

A selection is a best of its candidates, one after the other. Each candidate is grown and scored
alone, from a copy of the base and with a seed of its own: the next words of the stream, in order.
Among candidates that are all grown the least total wins, and of equal ones the first.

A fault ends the whole selection, so it counts before every error. Of several errors the first
counts, whatever the candidates before it cost.

Results:
1. `Contest.candidates_outcome`: which growth each outcome of a selection belongs to.
2. `Candidate.best_decides`: the verdict on some outcomes.
3. `Contest.select_decides`: both, for a selection.
-/

namespace Espalier

/-! ## Outcomes -/

theorem Stream.children_getElem? {count i : Nat} (h : i < count) (s : Stream) :
    (s.children count)[i]? = some (.ofSeed (s.advanceBy i).output) := by
  induction count generalizing s i with
  | zero => exact absurd h i.not_lt_zero
  | succ count ih =>
    cases i with
    | zero => rfl
    | succ i => exact ih (Nat.lt_of_succ_lt_succ h) s.advance

theorem Stream.length_children (count : Nat) (s : Stream) : (s.children count).length = count := by
  induction count generalizing s with
  | zero => rfl
  | succ count ih => exact congrArg Nat.succ (ih s.advance)

namespace Contest

variable {σ : Type} {a : Access} [CostFunction σ] {c : Contest σ a}

/-- What growing the base with a seed, and scoring what was created in a fresh session, comes to. -/
inductive Outcome (c : Contest σ a) (index : Nat) (seed : UInt64) :
    Except Failure Candidate → Prop
  | failed {f : Failure} {ground : Ground}
      (expanded : c.grammar.expand c.expansion ⟨c.base.scene, .ofSeed seed, []⟩ = .error f ground) :
      Outcome c index seed (.error f)
  | scored {report : Report} {ground : Ground} {cost : Cost} {session : σ}
      (expanded : c.grammar.expand c.expansion ⟨c.base.scene, .ofSeed seed, []⟩ = .ok report ground)
      (charged : CostFunction.score (CostFunction.fresh c.session) ⟨ground.scene, c.base.cost⟩
        report.created = (cost, session)) :
      Outcome c index seed (.ok ⟨index, ⟨ground.scene, cost⟩, report⟩)

theorem candidate_outcome (c : Contest σ a) (index : Nat) (seed : UInt64) :
    c.Outcome index seed (c.candidate index (.ofSeed seed)) := by
  unfold candidate
  split
  next expanded => exact .failed expanded
  next expanded => exact .scored expanded rfl

theorem candidates_getElem? (index i : Nat) (streams : List Stream) :
    (c.candidates index streams)[i]? = streams[i]?.map (c.candidate (index + i)) := by
  induction streams generalizing index i with
  | nil => rfl
  | cons stream streams ih =>
    cases i with
    | zero => rfl
    | succ i =>
      rw [candidates, List.getElem?_cons_succ, List.getElem?_cons_succ, ih,
        Nat.succ_add_eq_add_succ]

theorem length_candidates (index : Nat) (streams : List Stream) :
    (c.candidates index streams).length = streams.length := by
  induction streams generalizing index with
  | nil => rfl
  | cons stream streams ih => exact congrArg Nat.succ (ih (index + 1))

/-- The candidates of a selection have the next words of its stream for seeds, in order. -/
theorem candidates_outcome {count i : Nat} {stream : Stream} {outcome : Except Failure Candidate}
    (h : (c.candidates 0 (stream.children count))[i]? = some outcome) :
    c.Outcome i (stream.advanceBy i).output outcome := by
  have hi : i < count := by
    obtain ⟨hi, -⟩ := List.getElem?_eq_some_iff.mp h
    rwa [length_candidates, Stream.length_children] at hi
  rw [candidates_getElem?, Stream.children_getElem? hi] at h
  cases h
  rw [Nat.zero_add]
  exact candidate_outcome c i _

end Contest

/-! ## The verdict -/

namespace Candidate

/-- The verdict on some outcomes. -/
structure Decides (outcomes : List (Except Failure Candidate))
    (verdict : Except Failure Candidate) : Prop where
  /-- The first fault counts before all else. -/
  fault : ∀ before f after, outcomes = before ++ .error (.fault f) :: after →
    (∀ g, .error (.fault g) ∉ before) → verdict = .error (.fault f)
  /-- Without a fault the first error counts, whatever the other candidates cost. -/
  error : ∀ (before : List Candidate) e after,
    outcomes = before.map .ok ++ .error (.error e) :: after →
    (∀ g, .error (.fault g) ∉ after) → verdict = .error (.error e)
  /-- Of candidates with numbers for totals, the first with the least total is kept. -/
  least : ∀ cs, outcomes = cs.map .ok → (∀ c ∈ cs, c.total.isNaN = false) →
    ∃ before best after, cs = before ++ best :: after ∧ verdict = .ok best ∧
      (∀ c ∈ before, best.total < c.total) ∧ ∀ c ∈ after, ¬c.total < best.total

theorem fault?_append {before after : List (Except Failure Candidate)} {f : Fault}
    (h : ∀ g, .error (.fault g) ∉ before) :
    fault? (before ++ .error (.fault f) :: after) = some f := by
  induction before with
  | nil => rfl
  | cons outcome before ih =>
    have hrest : fault? (before ++ .error (.fault f) :: after) = some f :=
      ih fun g hg => h g (List.mem_cons_of_mem _ hg)
    match outcome with
    | .error (.fault g) => exact absurd List.mem_cons_self (h g)
    | .error (.error _) | .ok _ => exact hrest

theorem fault?_eq_none {outcomes : List (Except Failure Candidate)}
    (h : ∀ g, .error (.fault g) ∉ outcomes) : fault? outcomes = none := by
  induction outcomes with
  | nil => rfl
  | cons outcome outcomes ih =>
    have hrest : fault? outcomes = none := ih fun g hg => h g (List.mem_cons_of_mem _ hg)
    match outcome with
    | .error (.fault g) => exact absurd List.mem_cons_self (h g)
    | .error (.error _) | .ok _ => exact hrest

theorem all?_append_error (before : List Candidate) (f : Failure)
    (after : List (Except Failure Candidate)) :
    all? (before.map .ok ++ .error f :: after) = .error f := by
  induction before with
  | nil => rfl
  | cons c before ih =>
    rw [List.map_cons, List.cons_append, all?, ih]
    rfl

/-- The cheapest of some candidates is the first of the least total. -/
theorem foldl_cheaper_least (first : Candidate) (rest : List Candidate)
    (h : ∀ c ∈ first :: rest, c.total.isNaN = false) :
    FirstLeast (fun c c' => c.total < c'.total) (first :: rest) (rest.foldl cheaper first) := by
  refine foldl_firstLeast ?_ ?_ ?_ first rest ?_
  · exact fun best next (h : next.total < best.total) => if_pos h
  · exact fun best next (h : ¬next.total < best.total) => if_neg h
  · exact fun c c' c'' (h : c.total < c'.total) (h' : c'.total < c''.total) => double_lt_trans h h'
  · exact fun c hc c' c'' (h' : c'.total < c''.total) (hc' : ¬c.total < c''.total) =>
      double_lt_of_lt_of_not_lt (h c hc) h' hc'

/-- The best of some outcomes is their verdict. -/
theorem best_decides {outcomes : List (Except Failure Candidate)} (h : outcomes ≠ []) :
    Decides outcomes (best outcomes) where
  fault before f after hsplit hfirst := by
    rw [best, hsplit, fault?_append hfirst]
  error before e after hsplit hafter := by
    have hnone : fault? outcomes = none := by
      refine fault?_eq_none fun g hg => ?_
      rw [hsplit] at hg
      rcases List.mem_append.mp hg with hg | hg
      · obtain ⟨c, -, hc⟩ := List.mem_map.mp hg
        cases hc
      rcases List.mem_cons.mp hg with hg | hg
      · cases hg
      · exact hafter g hg
    rw [best, hnone, hsplit, all?_append_error]
  least cs hcs hnumbers := by
    rcases cs with - | ⟨first, rest⟩
    · exact absurd hcs h
    obtain ⟨before, after, hsplit, hbefore, hafter⟩ := foldl_cheaper_least first rest hnumbers
    refine ⟨before, _, after, hsplit, ?_, hbefore, hafter⟩
    rw [best, hcs, fault?_map_ok]
    simp only [all?_map_ok]

end Candidate

namespace Contest

variable {σ : Type} {a : Access} [CostFunction σ]

/-- A selection draws one seed for each candidate, grows and scores each of them alone, and answers
the verdict on what they come to. -/
theorem select_decides (c : Contest σ a) {count : Nat} (hcount : 1 ≤ count) (stream : Stream) :
    ∃ outcomes verdict, outcomes.length = count ∧
      (∀ i outcome, outcomes[i]? = some outcome →
        c.Outcome i (stream.advanceBy i).output outcome) ∧
      Candidate.Decides outcomes verdict ∧
      c.select count stream = match verdict with
        | .ok best => .ok best (stream.advanceBy count)
        | .error f => .error f (stream.advanceBy count) := by
  have hlength : (c.candidates 0 (stream.children count)).length = count := by
    rw [length_candidates, Stream.length_children]
  refine ⟨_, _, hlength, fun _ _ => candidates_outcome, Candidate.best_decides ?_, rfl⟩
  exact List.ne_nil_of_length_pos (hlength.symm ▸ hcount)

/-- Stems of two nodes, guided by nothing: all candidates cost the same. -/
def tied : Contest GuidedSession :=
  ⟨.ofScene .empty, Grammar.stem, ⟨"stem", 1, none⟩, .ofGuides []⟩

theorem tied_outcome {index : Nat} {seed : UInt64} {outcome : Except Failure Candidate}
    (h : tied.Outcome index seed outcome) :
    ∃ k, outcome = .ok k ∧ k.index = index ∧ k.total = 0 := by
  let grown : Scene Float32 := (Scene.empty.push (.isolated .structural .identity)).push
    (.isolated .structural .identity)
  have hexpand : ∃ report ground,
      tied.grammar.expand tied.expansion ⟨tied.base.scene, .ofSeed seed, []⟩ =
        .ok report ground ∧ report.created = [1, 2] ∧ ground.scene = grown :=
    ⟨_, _, Grammar.expand_eq_ok.mpr ⟨_, rfl, rfl⟩, rfl, rfl⟩
  obtain ⟨report, ground, hok, hcreated, hgrown⟩ := hexpand
  have hcost : (GuidedSession.score (.ofGuides []) ⟨grown, .zero⟩ [1, 2]).1.total = 0 := by
    decide +kernel
  cases h with
  | failed expanded => rw [hok] at expanded; cases expanded
  | scored expanded charged =>
    rw [hok] at expanded
    cases expanded
    rw [hcreated, hgrown] at charged
    exact ⟨_, rfl, rfl, (congrArg (·.1.total) charged).symm.trans hcost⟩

theorem select_decides_tied : 1 ≤ 3 ∧ ∃ best,
    tied.select 3 (.ofSeed 0) = .ok best (.advanceBy 3 (.ofSeed 0)) ∧ best.index = 0 := by
  obtain ⟨outcomes, verdict, hlength, houtcomes, hdecides, hselect⟩ :=
    select_decides tied (show 1 ≤ 3 by decide) (.ofSeed 0)
  match outcomes, hlength with
  | [o₀, o₁, o₂], _ =>
    obtain ⟨k₀, rfl, hindex, h₀⟩ := tied_outcome (houtcomes 0 o₀ rfl)
    obtain ⟨k₁, rfl, -, h₁⟩ := tied_outcome (houtcomes 1 o₁ rfl)
    obtain ⟨k₂, rfl, -, h₂⟩ := tied_outcome (houtcomes 2 o₂ rfl)
    have htotal : ∀ k ∈ [k₀, k₁, k₂], k.total = 0 := by simp [h₀, h₁, h₂]
    obtain ⟨before, best, after, hsplit, rfl, hbefore, -⟩ := hdecides.least [k₀, k₁, k₂] rfl
      fun k hk => by rw [htotal k hk]; decide +kernel
    refine ⟨by decide, best, hselect, ?_⟩
    cases before with
    | nil =>
      cases hsplit
      exact hindex
    | cons first before =>
      -- An earlier candidate would be dearer, but all cost nothing.
      have hless : best.total < first.total := hbefore first List.mem_cons_self
      rw [htotal best (by simp [hsplit]), htotal first (by simp [hsplit])] at hless
      exact absurd hless (by decide +kernel)

end Contest

end Espalier
