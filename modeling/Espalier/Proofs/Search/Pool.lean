import Espalier.Proofs.Search.NotANumber

/-!
# More candidates are no worse

Each candidate is grown from a word of the stream that its index counts off, so the first `n`
candidates are the same however many are asked for. A search through more of them goes on from the
one that it would have ended with, and leaves it only for a later one that is strictly cheaper.

Results:
1. `Contest.candidates_take`: the candidates of a smaller selection are the first ones of a larger.
2. `Candidate.foldl_cheaper_stays`: what a search keeps that goes on from a candidate.
3. `Contest.select_more`: a selection of more candidates next to one of fewer.
-/

namespace Espalier

theorem Stream.children_take {n m : Nat} (h : n ≤ m) (s : Stream) :
    (s.children m).take n = s.children n := by
  refine List.ext_getElem? fun i => ?_
  rw [List.getElem?_take]
  split
  next hi => rw [children_getElem? hi, children_getElem? (Nat.lt_of_lt_of_le hi h)]
  next hi =>
    rw [List.getElem?_eq_none]
    rw [length_children]
    exact Nat.not_lt.mp hi

/-- A search that goes on from a candidate keeps it, or finds a strictly cheaper one. -/
theorem Candidate.foldl_cheaper_stays (first : Candidate) (rest : List Candidate) :
    rest.foldl cheaper first = first ∨
      rest.foldl cheaper first ∈ rest ∧ (rest.foldl cheaper first).total < first.total := by
  induction rest generalizing first with
  | nil => exact .inl rfl
  | cons next rest ih =>
    rw [List.foldl_cons, cheaper]
    split
    next hless =>
      rcases ih next with h | ⟨hmem, hlower⟩
      · rw [h]
        exact .inr ⟨List.mem_cons_self, hless⟩
      · exact .inr ⟨List.mem_cons_of_mem _ hmem, double_lt_trans hlower hless⟩
    · exact (ih first).imp_right (And.imp_left (List.mem_cons_of_mem _))

namespace Contest

variable {σ : Type} {a : Access} [CostFunction σ] {c : Contest σ a} {n m : Nat}
  {stream stream' : Stream} {best : Candidate}

theorem candidates_take (h : n ≤ m) :
    (c.candidates 0 (stream.children m)).take n = c.candidates 0 (stream.children n) := by
  refine List.ext_getElem? fun i => ?_
  rw [List.getElem?_take, candidates_getElem?, candidates_getElem?, ← Stream.children_take h,
    List.getElem?_take]
  split <;> rfl

/-- A selection that ends well has grown all its candidates. -/
theorem candidates_of_select (h : c.select m stream = .ok best stream') :
    ∃ first rest, c.candidates 0 (stream.children m) = (first :: rest).map .ok ∧
      best = rest.foldl Candidate.cheaper first := by
  unfold select at h
  split at h
  next hbest =>
    cases h
    exact Candidate.best_found hbest
  · cases h

/-- Candidates are numbered by their places. -/
theorem index_of_candidates {cs : List Candidate}
    (h : c.candidates 0 (stream.children m) = cs.map .ok) {i : Nat} {k : Candidate}
    (hk : cs[i]? = some k) : k.index = i := by
  have houtcome : (c.candidates 0 (stream.children m))[i]? = some (.ok k) := by
    rw [h, List.getElem?_map, hk]
    rfl
  cases candidates_outcome houtcome with
  | scored => rfl

/-- If a selection among more candidates ends well, then so does one among fewer from the same
stream. The larger one keeps the same candidate, or one of those that the smaller one has not grown,
and that for a strictly lower total. So the total is no higher, unless it is not a number. -/
theorem select_more (hn : 1 ≤ n) (hnm : n ≤ m) (h : c.select m stream = .ok best stream') :
    ∃ few, c.select n stream = .ok few (stream.advanceBy n) ∧
      .ok few ∈ c.candidates 0 (stream.children m) ∧
      (few.total.isNaN = false → best.total ≤ few.total) ∧
      (best.index < n → best = few) ∧ (n ≤ best.index → best.total < few.total) := by
  obtain ⟨first, rest, hall, rfl⟩ := candidates_of_select h
  obtain ⟨n, rfl⟩ : ∃ k, n = k + 1 := ⟨n - 1, by omega⟩
  have hfew : c.candidates 0 (stream.children (n + 1)) = (first :: rest.take n).map .ok := by
    rw [← candidates_take hnm, hall, ← List.map_take, List.take_succ_cons]
  have hsplit : rest.foldl Candidate.cheaper first =
      (rest.drop n).foldl Candidate.cheaper ((rest.take n).foldl Candidate.cheaper first) := by
    rw [← List.foldl_append, List.take_append_drop]
  have hselect := select_of_candidates hfew
  have hmem := Candidate.foldl_cheaper_mem first (rest.take n)
  generalize (rest.take n).foldl Candidate.cheaper first = few at *
  have hpool : .ok few ∈ c.candidates 0 (stream.children m) := by
    rw [hall]
    rw [← List.take_succ_cons] at hmem
    exact List.mem_map_of_mem (List.mem_of_mem_take hmem)
  refine ⟨few, hselect, hpool, ?_⟩
  rw [hsplit]
  rcases Candidate.foldl_cheaper_stays few (rest.drop n) with hsame | ⟨hlater, hless⟩
  · -- The candidate of the smaller selection is kept, and it is one of the first.
    rw [hsame]
    obtain ⟨i, hi⟩ := List.mem_iff_getElem?.mp hmem
    obtain ⟨hlt, -⟩ := List.getElem?_eq_some_iff.mp hi
    rw [List.length_cons, List.length_take] at hlt
    have hindex : few.index < n + 1 := by
      rw [index_of_candidates hfew hi]
      omega
    exact ⟨fun hnumber => double_le_of_not_lt hnumber hnumber (double_lt_irrefl _),
      fun _ => rfl, fun hle => absurd hindex (Nat.not_lt.mpr hle)⟩
  · -- A later candidate is cheaper, and it is behind the first ones.
    obtain ⟨j, hj⟩ := List.mem_iff_getElem?.mp hlater
    rw [List.getElem?_drop, ← List.getElem?_cons_succ] at hj
    have hindex := index_of_candidates hall hj
    refine ⟨fun hnumber => ?_, fun hlt => by omega, fun _ => hless⟩
    refine double_le_of_not_lt (double_number_of_lt hless).1 hnumber fun hmore => ?_
    exact double_lt_irrefl _ (double_lt_trans hless hmore)

/-- A shoot that is as likely to be missing, along a guide that it grows away from. -/
def astray : Contest GuidedSession where
  base := .ofScene .empty
  grammar := ⟨[("shoot", .maybe 0.5 <| Script.body
    [⟨.joint "tip" ⟨3, 4, 0⟩, "at", "at"⟩, ⟨.joint "tip" ⟨0, 0, 0⟩, "at", "at"⟩])]⟩
  expansion := ⟨"shoot", 0, none⟩
  session := .ofGuides [⟨.line .zero ⟨1, 0, 0⟩, (0, 0, 1), 10, 0⟩]

def total? : Except Failure Candidate → Option Float
  | .ok k => some k.total
  | .error _ => none

theorem exists_of_total? {outcome : Except Failure Candidate} {x : Float}
    (h : total? outcome = some x) : ∃ k, outcome = .ok k ∧ k.total = x := by
  cases outcome with
  | error f => cases h
  | ok k => exact ⟨k, rfl, Option.some.inj h⟩

/-- Of three candidates the second is bare, and the other two have a shoot. A selection keeps the
second if it gets to see it. -/
theorem select_more_astray : 1 ≤ 1 ∧ 1 ≤ 3 ∧ 1 ≤ 2 ∧ 2 ≤ 3 ∧ ∃ best shoot,
    astray.select 3 (.ofSeed 1) = .ok best (.advanceBy 3 (.ofSeed 1)) ∧ best.index = 1 ∧
    astray.select 2 (.ofSeed 1) = .ok best (.advanceBy 2 (.ofSeed 1)) ∧
    astray.select 1 (.ofSeed 1) = .ok shoot (.advanceBy 1 (.ofSeed 1)) ∧
    best.total < shoot.total := by
  have hfirst : total? (astray.candidate 0 (Stream.ofSeed 1).child) = some 25 := by
    rw [candidate_eq_levels]
    decide +kernel
  have hsecond : total? (astray.candidate 1 (Stream.ofSeed 1).advance.child) = some 0 := by
    rw [candidate_eq_levels]
    decide +kernel
  have hthird : total? (astray.candidate 2 (Stream.ofSeed 1).advance.advance.child) = some 25 := by
    rw [candidate_eq_levels]
    decide +kernel
  obtain ⟨k₀, ho₀, h₀⟩ := exists_of_total? hfirst
  obtain ⟨k₁, ho₁, h₁⟩ := exists_of_total? hsecond
  obtain ⟨k₂, ho₂, h₂⟩ := exists_of_total? hthird
  have hall : astray.candidates 0 ((Stream.ofSeed 1).children 3) = (k₀ :: [k₁, k₂]).map .ok := by
    simp only [List.map_cons, List.map_nil, ← ho₀, ← ho₁, ← ho₂]
    rfl
  have hbest : [k₁, k₂].foldl Candidate.cheaper k₀ = k₁ := by
    have hless : k₁.total < k₀.total := by
      rw [h₀, h₁]
      decide +kernel
    have hmore : ¬k₂.total < k₁.total := by
      rw [h₁, h₂]
      decide +kernel
    simp only [List.foldl_cons, List.foldl_nil, Candidate.cheaper, if_pos hless, if_neg hmore]
  have hselect := select_of_candidates hall
  have hindex : k₁.index = 1 := index_of_candidates hall rfl
  rw [hbest] at hselect
  obtain ⟨shoot, hone, -, -, -, hless⟩ :=
    select_more (show 1 ≤ 1 by decide) (show 1 ≤ 3 by decide) hselect
  obtain ⟨few, htwo, -, -, hsame, -⟩ :=
    select_more (show 1 ≤ 2 by decide) (show 2 ≤ 3 by decide) hselect
  rw [← hsame (by omega)] at htwo
  exact ⟨by decide, by decide, by decide, by decide, k₁, shoot, hselect, hindex, htwo, hone,
    hless (by omega)⟩

end Contest

end Espalier
