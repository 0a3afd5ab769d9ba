import Espalier.Grammar.Script
import Espalier.Proofs.Search.Contest
import Mathlib.Data.Set.List

/-!
# Totals that are no number

Of a guide only the coefficients are checked. Its curve can run so far out that the distance from it
is not a number, and then the total of a candidate is not one either.

No comparison with such a total is true. So a candidate that has one is never preferred to another,
and might as well not take part, unless it comes first. The first candidate is kept until a cheaper
one is found, and none counts as cheaper than one whose total is not a number.

Results:
1. `foldl_cheaper_filter`, `foldl_cheaper_of_isNaN`: what such totals do to a search for the least.
2. `select_least_number`: what a selection keeps.
3. `far_first_kept`: a selection that keeps such a total, with a number at hand.
-/

namespace Espalier

namespace Candidate

variable {first next : Candidate}

/-- Against a total that is not a number the first candidate stays. -/
theorem cheaper_of_isNaN (h : first.total.isNaN ∨ next.total.isNaN) :
    cheaper first next = first := by
  refine if_neg fun hless => ?_
  obtain ⟨hnext, hfirst⟩ := double_number_of_lt hless
  rw [hnext, hfirst] at h
  simp at h

/-- Behind the first candidate, those whose total is not a number might as well be left out. -/
theorem foldl_cheaper_filter (first : Candidate) (rest : List Candidate) :
    rest.foldl cheaper first = (rest.filter fun c => !c.total.isNaN).foldl cheaper first := by
  induction rest generalizing first with
  | nil => rfl
  | cons next rest ih =>
    rw [List.foldl_cons, ih]
    cases hnext : next.total.isNaN with
    | false => rw [List.filter_cons_of_pos (by rw [hnext]; rfl), List.foldl_cons]
    | true => rw [List.filter_cons_of_neg (by rw [hnext]; simp), cheaper_of_isNaN (.inr hnext)]

/-- The first candidate stays if its total is not a number. -/
theorem foldl_cheaper_of_isNaN (h : first.total.isNaN) (rest : List Candidate) :
    rest.foldl cheaper first = first := by
  induction rest with
  | nil => rfl
  | cons next rest ih => rw [List.foldl_cons, cheaper_of_isNaN (.inl h), ih]

/-- If the total of the first candidate is a number, so is the one that is found, and none is less,
wherever the totals stand that are not. -/
theorem foldl_cheaper_number (h : first.total.isNaN = false) (rest : List Candidate) :
    (rest.foldl cheaper first).total.isNaN = false ∧
      ∀ c ∈ first :: rest, ¬c.total < (rest.foldl cheaper first).total := by
  let numbers := rest.filter fun c => !c.total.isNaN
  have hnumbers : ∀ c ∈ first :: numbers, c.total.isNaN = false := by
    refine List.forall_mem_cons.mpr ⟨h, fun c hc => ?_⟩
    simpa using List.of_mem_filter hc
  rw [foldl_cheaper_filter]
  refine ⟨hnumbers _ (foldl_cheaper_mem first numbers), fun c hc hless => ?_⟩
  have hmem : c ∈ first :: numbers := by
    rcases List.mem_cons.mp hc with rfl | hc
    · exact List.mem_cons_self
    · have hnumber : !c.total.isNaN := by rw [(double_number_of_lt hless).1]; rfl
      exact List.mem_cons_of_mem _ (List.mem_filter.mpr ⟨hc, hnumber⟩)
  obtain ⟨before, after, hsplit, hbefore, hafter⟩ := foldl_cheaper_least first numbers hnumbers
  rw [hsplit] at hmem
  rcases List.mem_append.mp hmem with hmem | hmem
  · exact double_lt_irrefl _ (double_lt_trans hless (hbefore c hmem))
  rcases List.mem_cons.mp hmem with rfl | hmem
  · exact double_lt_irrefl _ hless
  · exact hafter c hmem hless

end Candidate

namespace Contest

variable {σ : Type} {a : Access} [CostFunction σ]

/-- If no expansion of a candidate fails, the candidates are all there. -/
theorem candidates_of_grown (c : Contest σ a) {count : Nat} (stream : Stream)
    (hgrown : ∀ i < count, ∃ report ground,
      c.grammar.expand c.expansion ⟨c.base.scene, .ofSeed (stream.advanceBy i).output, []⟩ =
        .ok report ground) :
    ∃ cs : List Candidate, cs.length = count ∧
      c.candidates 0 (stream.children count) = cs.map .ok := by
  have hlength : (c.candidates 0 (stream.children count)).length = count := by
    rw [length_candidates, Stream.length_children]
  have hok : ∀ outcome ∈ c.candidates 0 (stream.children count),
      outcome ∈ Set.range (Except.ok : Candidate → Except Failure Candidate) := by
    intro outcome hmem
    obtain ⟨i, hi⟩ := List.mem_iff_getElem?.mp hmem
    obtain ⟨hlt, -⟩ := List.getElem?_eq_some_iff.mp hi
    obtain ⟨report, ground, hok⟩ := hgrown i (hlength ▸ hlt)
    cases candidates_outcome hi with
    | failed expanded => rw [hok] at expanded; cases expanded
    | scored expanded charged => exact ⟨_, rfl⟩
  have hrange : c.candidates 0 (stream.children count) ∈
      Set.range (List.map (Except.ok : Candidate → Except Failure Candidate)) := by
    rw [Set.range_list_map]
    exact hok
  obtain ⟨cs, hcs⟩ := hrange
  exact ⟨cs, by rw [← hlength, ← hcs, List.length_map], hcs.symm⟩

theorem select_of_candidates {c : Contest σ a} {count : Nat} {stream : Stream} {first : Candidate}
    {rest : List Candidate}
    (h : c.candidates 0 (stream.children count) = (first :: rest).map .ok) :
    c.select count stream =
      .ok (rest.foldl Candidate.cheaper first) (stream.advanceBy count) := by
  simp only [select, Candidate.best, h, Candidate.fault?_map_ok, Candidate.all?_map_ok]

/-- A selection of which no candidate fails keeps one of them. If the total of the first is a
number, then so is that of the one it keeps, and no candidate has a lesser one, wherever those stand
whose total is not a number. If that of the first is not a number, it keeps the first. -/
theorem select_least_number (c : Contest σ a) {count : Nat} (hcount : 1 ≤ count) (stream : Stream)
    (hgrown : ∀ i < count, ∃ report ground,
      c.grammar.expand c.expansion ⟨c.base.scene, .ofSeed (stream.advanceBy i).output, []⟩ =
        .ok report ground) :
    ∃ first rest best, (first :: rest).length = count ∧
      c.candidates 0 (stream.children count) = (first :: rest).map .ok ∧
      c.select count stream = .ok best (stream.advanceBy count) ∧ best ∈ first :: rest ∧
      (first.total.isNaN = false →
        best.total.isNaN = false ∧ ∀ k ∈ first :: rest, ¬k.total < best.total) ∧
      (first.total.isNaN → best = first) := by
  obtain ⟨cs, hlength, hcs⟩ := c.candidates_of_grown stream hgrown
  obtain ⟨first, rest, rfl⟩ := List.exists_cons_of_length_pos (hlength.symm ▸ hcount)
  exact ⟨first, rest, _, hlength, hcs, select_of_candidates hcs,
    Candidate.foldl_cheaper_mem first rest,
    fun hnumber => Candidate.foldl_cheaper_number hnumber rest,
    fun hnone => Candidate.foldl_cheaper_of_isNaN hnone rest⟩

/-! ## A distance that is not a number -/

theorem candidate_eq_levels (c : Contest σ) (index : Nat) (stream : Stream) :
    c.candidate index stream =
      match c.grammar.levels c.expansion.first (c.expansion.depth.toNat + 1)
        ⟨c.base.scene, stream, []⟩ with
      | .error f _ => .error f
      | .ok ls ground =>
        let report := Report.ofLevels c.expansion.first ls
        let (cost, _) := CostFunction.score (CostFunction.fresh c.session)
          ⟨ground.scene, c.base.cost⟩ report.created
        .ok ⟨index, ⟨ground.scene, cost⟩, report⟩ := by
  rw [candidate, Grammar.expand_eq_levels]
  simp only [Functor.map, EStateM.map]
  cases c.grammar.levels c.expansion.first (c.expansion.depth.toNat + 1)
    ⟨c.base.scene, stream, []⟩ <;> rfl

/-- Whether a candidate was grown whose total is a number. -/
def numbered? : Except Failure Candidate → Option Bool
  | .ok k => some !k.total.isNaN
  | .error _ => none

theorem exists_of_numbered? {outcome : Except Failure Candidate} {b : Bool}
    (h : numbered? outcome = some b) : ∃ k, outcome = .ok k ∧ k.total.isNaN = !b := by
  cases outcome with
  | error f => cases h
  | ok k =>
    cases h
    exact ⟨k, rfl, (Bool.not_not _).symm⟩

theorem candidates_two {c : Contest σ a} {stream : Stream} {b b' : Bool}
    (h : numbered? (c.candidate 0 stream.child) = some b)
    (h' : numbered? (c.candidate 1 stream.advance.child) = some b') :
    ∃ k k', c.candidates 0 (stream.children 2) = [.ok k, .ok k'] ∧ k.total.isNaN = !b ∧
      k'.total.isNaN = !b' := by
  obtain ⟨k, hk, hnumber⟩ := exists_of_numbered? h
  obtain ⟨k', hk', hnumber'⟩ := exists_of_numbered? h'
  refine ⟨k, k', ?_, hnumber, hnumber'⟩
  rw [← hk, ← hk']
  rfl

/-- A shoot of two nodes that may not grow at all, along a guide whose length has no finite square.
The second node is charged for the distance of the first, which is not a number. -/
def far : Contest GuidedSession where
  base := .ofScene .empty
  grammar := ⟨[("shoot", .maybe 0.5 <| Script.body
    [⟨.joint "tip" ⟨-1e10, 0, 0⟩, "at", "at"⟩, ⟨.joint "tip" ⟨0, 0, 0⟩, "at", "at"⟩])]⟩
  expansion := ⟨"shoot", 0, none⟩
  session := .ofGuides [⟨.line .zero ⟨1e30, 0, 0⟩, (0, 0, 1), 10, 0⟩]

/-- The first candidate is bare and costs nothing, and the total of the second is not a number. The
first is kept. -/
theorem far_second_passed : 1 ≤ 2 ∧
    (∀ i < 2, ∃ report ground, far.grammar.expand far.expansion
      ⟨far.base.scene, .ofSeed ((Stream.ofSeed 8).advanceBy i).output, []⟩ = .ok report ground) ∧
    ∃ bare shoot best, far.candidates 0 ((Stream.ofSeed 8).children 2) = [.ok bare, .ok shoot] ∧
      shoot.total.isNaN ∧ far.select 2 (.ofSeed 8) = .ok best (.advanceBy 2 (.ofSeed 8)) ∧
      best.total.isNaN = false ∧ ¬bare.total < best.total := by
  have hfirst : numbered? (far.candidate 0 (Stream.ofSeed 8).child) = some true := by
    rw [candidate_eq_levels]
    decide +kernel
  have hsecond : numbered? (far.candidate 1 (Stream.ofSeed 8).advance.child) = some false := by
    rw [candidate_eq_levels]
    decide +kernel
  obtain ⟨bare, shoot, hcandidates, hnumber, hnone⟩ := candidates_two hfirst hsecond
  have hgrown : ∀ i < 2, ∃ report ground, far.grammar.expand far.expansion
      ⟨far.base.scene, .ofSeed ((Stream.ofSeed 8).advanceBy i).output, []⟩ =
        .ok report ground := by
    intro i hi
    have hi : ∃ k, (far.candidates 0 ((Stream.ofSeed 8).children 2))[i]? = some (.ok k) := by
      rw [hcandidates]
      match i, hi with
      | 0, _ => exact ⟨bare, rfl⟩
      | 1, _ => exact ⟨shoot, rfl⟩
    obtain ⟨k, hk⟩ := hi
    cases candidates_outcome hk with
    | scored expanded _ => exact ⟨_, _, expanded⟩
  obtain ⟨first, rest, best, -, hcs, hselect, -, hleast, -⟩ :=
    select_least_number far (show 1 ≤ 2 by decide) (.ofSeed 8) hgrown
  rw [hcandidates] at hcs
  obtain rfl : bare = first := Except.ok.inj (List.cons.inj hcs).1
  obtain ⟨hbest, hless⟩ := hleast hnumber
  exact ⟨by decide, hgrown, bare, shoot, best, hcandidates, hnone, hselect, hbest,
    hless bare List.mem_cons_self⟩

/-- The total of the first candidate is not a number, and it is kept, though the second costs
nothing. -/
theorem far_first_kept : ∃ shoot bare,
    far.candidates 0 ((Stream.ofSeed 1).children 2) = [.ok shoot, .ok bare] ∧
      bare.total.isNaN = false ∧
      far.select 2 (.ofSeed 1) = .ok shoot (.advanceBy 2 (.ofSeed 1)) ∧ shoot.total.isNaN := by
  have hfirst : numbered? (far.candidate 0 (Stream.ofSeed 1).child) = some false := by
    rw [candidate_eq_levels]
    decide +kernel
  have hsecond : numbered? (far.candidate 1 (Stream.ofSeed 1).advance.child) = some true := by
    rw [candidate_eq_levels]
    decide +kernel
  obtain ⟨shoot, bare, hcandidates, hnone, hnumber⟩ := candidates_two hfirst hsecond
  have hall : far.candidates 0 ((Stream.ofSeed 1).children 2) = (shoot :: [bare]).map .ok :=
    hcandidates
  have hselect := select_of_candidates hall
  rw [Candidate.foldl_cheaper_of_isNaN hnone] at hselect
  exact ⟨shoot, bare, hcandidates, hnumber, hselect, hnone⟩

end Contest

end Espalier
