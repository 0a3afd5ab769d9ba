import Espalier.Cost.Session
import Espalier.Proofs.Search.Journal
import Mathlib.Data.List.Chain
import Mathlib.Data.List.Nodup
import Mathlib.Data.List.ReduceOption

/-!
# The books of a run

What the rounds of a run say about one another. A round expands open tips of the round before it,
so no tip is expanded twice; the turns of all rounds create the nodes of the final scene one after
the other; and what is told of the run agrees with its journal.

Results:
1. `journalFrom_chain`, `journalFrom_stops`: which tips a round expands, and when a run ends early.
2. `journalFrom_tips`: the expanded tips stand among the created nodes, in the same order.
3. `grow_bookkept`: the books of every run that ends well.
-/

namespace Espalier

/-- A structural node with the point where growth goes on, and without a structural child. -/
def Scene.IsOpenTip (s : Scene Float32) (tipPoint : String) (id : NodeId) : Prop :=
  s.isStructural id ∧ (∃ v, (s.node id).point? tipPoint = some v) ∧
    ∀ c ∈ s.children id, ¬ s.isStructural c

theorem Scene.canGrowAt_iff {s : Scene Float32} {tipPoint : String} {id : NodeId} :
    s.canGrowAt tipPoint id ↔ s.IsOpenTip tipPoint id := by
  simp [canGrowAt, IsOpenTip, Option.isSome_iff_exists, and_assoc]

theorem Round.mem_openTips {r : Round} {tipPoint : String} {id : NodeId} :
    id ∈ r.openTips tipPoint ↔ id ∈ r.created ∧ r.outcome.scene.IsOpenTip tipPoint id := by
  rw [openTips, Scene.growingTips, List.mem_filter, Scene.canGrowAt_iff]

namespace Plan

variable {σ : Type} [CostFunction σ] {plan : Plan} {grammar : Grammar} {session : σ}

section Rounds

variable {remaining number : Nat} {tips : List (Option NodeId)} {specimen : Specimen}
  {rs : List Round} {stream stream' : Stream}

theorem journalFrom_numbers
    (h : plan.journalFrom grammar session remaining number tips specimen stream = .ok rs stream') :
    rs.map (·.number) = List.range' number rs.length := by
  refine journalFrom_invariant (P := fun _ number _ _ rs =>
    rs.map (·.number) = List.range' number rs.length) ?_ ?_ h
  · intros; rfl
  · rintro _ _ _ _ r later _ _ rfl - - ih
    rw [List.map_cons, ih, List.length_cons, List.range'_succ]

theorem journalFrom_length
    (h : plan.journalFrom grammar session remaining number tips specimen stream = .ok rs stream') :
    rs.length ≤ remaining := by
  refine journalFrom_invariant (P := fun remaining _ _ _ rs => rs.length ≤ remaining) ?_ ?_ h
  · intros; exact Nat.zero_le _
  · intro _ _ _ _ r later _ _ _ _ _ ih
    exact Nat.succ_le_succ ih

/-- A run that has rounds left has no tips left. -/
theorem journalFrom_stops
    (h : plan.journalFrom grammar session remaining number tips specimen stream = .ok rs stream') :
    rs.length < remaining → tips = [] ∧ rs = [] ∨
      ∃ last, rs.getLast? = some last ∧ plan.nextTips last = [] := by
  refine journalFrom_invariant (P := fun remaining _ tips _ rs => rs.length < remaining →
    tips = [] ∧ rs = [] ∨ ∃ last, rs.getLast? = some last ∧ plan.nextTips last = []) ?_ ?_ h
  · rintro remaining _ tips _ (rfl | rfl) hlt
    · exact absurd hlt (Nat.not_lt_zero _)
    · exact .inl ⟨rfl, rfl⟩
  · intro _ _ _ _ r later _ _ _ _ _ ih hlt
    refine .inr ?_
    rcases ih (Nat.lt_of_succ_lt_succ hlt) with ⟨hnone, rfl⟩ | ⟨last, hlast, hnone⟩
    · exact ⟨r, rfl, List.map_eq_nil_iff.mp hnone⟩
    · exact ⟨last, by rw [List.getLast?_cons, hlast]; rfl, hnone⟩

/-- Each round but the first expands the open tips of the round before it. -/
theorem journalFrom_chain
    (h : plan.journalFrom grammar session remaining number tips specimen stream = .ok rs stream') :
    (∀ r ∈ rs.head?, r.tips = tips) ∧
      rs.IsChain fun r r' => r'.tips = (plan.nextTips r).map some := by
  refine journalFrom_invariant (P := fun _ _ tips _ rs => (∀ r ∈ rs.head?, r.tips = tips) ∧
    rs.IsChain fun r r' => r'.tips = (plan.nextTips r).map some) ?_ ?_ h
  · intro _ _ _ _ _
    exact ⟨fun _ hr => (nomatch hr), .nil⟩
  · rintro _ _ tips _ r later _ _ - - hturns ⟨hhead, hchain⟩
    refine ⟨fun r' hr' => ?_, List.isChain_cons.mpr ⟨hhead, hchain⟩⟩
    cases hr'
    exact turns_tips hturns

/-- The expanded tips, the given ones apart, stand among the created nodes in the same order: those
of a round were created in the round before it. -/
theorem journalFrom_tips
    (h : plan.journalFrom grammar session remaining number tips specimen stream = .ok rs stream') :
    (rs.flatMap Round.tips).reduceOption.Sublist
      (tips.reduceOption ++ rs.flatMap Round.created) := by
  refine journalFrom_invariant (P := fun _ _ tips _ rs =>
    (rs.flatMap Round.tips).reduceOption.Sublist
      (tips.reduceOption ++ rs.flatMap Round.created)) ?_ ?_ h
  · intro _ _ _ _ _
    exact List.nil_sublist _
  · intro _ _ tips _ r later _ _ _ _ hturns ih
    have htips : r.tips = tips := turns_tips hturns
    have hnext : (plan.nextTips r).Sublist r.created :=
      (List.take_sublist _ _).trans List.filter_sublist
    have hmap : ((plan.nextTips r).map some).reduceOption = plan.nextTips r := by
      simp [List.reduceOption]
    rw [hmap] at ih
    rw [List.flatMap_cons, List.flatMap_cons, htips, List.reduceOption_append]
    exact (List.Sublist.refl _).append (ih.trans (hnext.append (List.Sublist.refl _)))

end Rounds

/-- The cost after some rounds is that of the last one. -/
theorem afterRounds_cost (specimen : Specimen) (rs : List Round) :
    (afterRounds specimen rs).cost =
      ((rs.map Round.account).getLast?.map (·.cost)).getD specimen.cost := by
  induction rs generalizing specimen with
  | nil => rfl
  | cons r rs ih =>
    rw [afterRounds, ih, List.map_cons, List.getLast?_cons]
    cases (rs.map Round.account).getLast? <;> rfl

end Plan

/-- What the journal of a run says of the run, and its rounds of one another. -/
structure Bookkept (plan : Plan) (growth : Growth) (rs : List Round) : Prop where
  told : growth.rounds = rs.map Round.account
  numbered : growth.rounds.map (·.round) = List.range growth.rounds.length
  bounded : growth.rounds.length ≤ plan.rounds.toNat
  /-- Before its last round, a run ends only if it may expand no tip or has none to expand. -/
  stops : growth.rounds.length < plan.rounds.toNat → ∃ last, rs.getLast? = some last ∧
    (plan.maxTips = 0 ∨
      ∀ id ∈ last.created, ¬ last.outcome.scene.IsOpenTip plan.tipPoint id)
  first : ∀ r, rs[0]? = some r → r.tips = [none] ∧ r.account.expansions = 1
  /-- A later round expands the open tips of the round before, in creation order, up to the number
  that is allowed. -/
  next : ∀ i r r', rs[i]? = some r → rs[i + 1]? = some r' →
    r'.tips = ((r.openTips plan.tipPoint).take plan.maxTips).map some ∧
    r'.account.expansions = min plan.maxTips (r.openTips plan.tipPoint).length
  openTips : ∀ r ∈ rs, (r.openTips plan.tipPoint).Sublist r.created ∧
    ∀ id, id ∈ r.openTips plan.tipPoint ↔
      id ∈ r.created ∧ r.outcome.scene.IsOpenTip plan.tipPoint id
  /-- The nodes of a turn are numbered on from the scene that it starts with. -/
  consecutive : ∀ t ∈ rs.flatMap (·.turns),
    t.created = List.range' t.base.scene.size t.created.length
  created : (rs.flatMap (·.turns)).flatMap Turn.created =
    List.range' 1 (growth.specimen.scene.size - 1)
  disjoint : (rs.flatMap (·.turns)).Pairwise fun t t' => t.created.Disjoint t'.created
  counted : 1 + (growth.rounds.map (·.nodesCreated)).sum = growth.specimen.scene.size
  tips_nodup : (rs.flatMap Round.tips).reduceOption.Nodup
  cost : growth.specimen.cost = (growth.rounds.getLast?.map (·.cost)).getD .zero

namespace Plan

variable {σ : Type} [CostFunction σ]

section Journal

variable {plan : Plan} {grammar : Grammar} {session : σ} {rs : List Round}
  {stream stream' : Stream}

/-- The turns of a run, one after the other, create the nodes of its scene but the root. -/
theorem journal_created (h : plan.journal grammar session stream = .ok rs stream') :
    (rs.flatMap (·.turns)).flatMap Turn.created =
      List.range' 1 ((afterRounds (.ofScene .empty) rs).scene.size - 1) := by
  obtain ⟨-, hcreated⟩ := journalFrom_created h
  rw [List.flatMap_assoc]
  exact hcreated

theorem journal_counted (h : plan.journal grammar session stream = .ok rs stream') :
    1 + (rs.map (·.created.length)).sum = (afterRounds (.ofScene .empty) rs).scene.size := by
  obtain ⟨hevolves, -⟩ := journalFrom_created h
  have hsize : 1 ≤ (afterRounds (.ofScene .empty) rs).scene.size :=
    (Scene.evolves_extends hevolves).size
  have hlength := congrArg List.length (journal_created h)
  rw [List.flatMap_assoc, List.length_range', List.length_flatMap] at hlength
  change (rs.map (·.created.length)).sum = _ at hlength
  rw [hlength]
  exact Nat.add_sub_cancel' hsize

/-- A run that has rounds left may expand no tip, or its last round has left none to expand. -/
theorem journal_stops (h : plan.journal grammar session stream = .ok rs stream')
    (hlt : rs.length < plan.rounds.toNat) : ∃ last, rs.getLast? = some last ∧
      (plan.maxTips = 0 ∨
        ∀ id ∈ last.created, ¬ last.outcome.scene.IsOpenTip plan.tipPoint id) := by
  rcases journalFrom_stops h hlt with ⟨hnone, -⟩ | ⟨last, hlast, hnone⟩
  · cases hnone
  · refine ⟨last, hlast, (List.take_eq_nil_iff.mp hnone).imp id fun hnone id hid hopen => ?_⟩
    have hmem := Round.mem_openTips.mpr ⟨hid, hopen⟩
    rw [hnone] at hmem
    cases hmem

theorem journal_next (h : plan.journal grammar session stream = .ok rs stream') {i : Nat}
    {r r' : Round} (hr : rs[i]? = some r) (hr' : rs[i + 1]? = some r') :
    r'.tips = (plan.nextTips r).map some := by
  obtain ⟨-, hchain⟩ := journalFrom_chain h
  obtain ⟨hi, rfl⟩ := List.getElem?_eq_some_iff.mp hr'
  obtain ⟨-, rfl⟩ := List.getElem?_eq_some_iff.mp hr
  exact List.isChain_iff_getElem.mp hchain i hi

end Journal

/-- The books of a run that ends well, for any grammar, cost function and stream. -/
theorem grow_bookkept (plan : Plan) (grammar : Grammar) (session : σ) {growth : Growth}
    {stream stream' : Stream} (h : plan.grow grammar session stream = .ok growth stream') :
    ∃ rs, plan.journal grammar session stream = .ok rs stream' ∧ Bookkept plan growth rs := by
  rw [grow_eq_journal] at h
  simp only [Functor.map, EStateM.map] at h
  split at h
  · next rs stream₁ hjournal =>
    cases h
    refine ⟨rs, hjournal, ?_⟩
    obtain ⟨hhead, -⟩ := journalFrom_chain hjournal
    have hnodup := List.nodup_range' (s := 1)
      (n := (afterRounds (.ofScene .empty) rs).scene.size - 1) 1
    rw [← journal_created hjournal] at hnodup
    have hlength : (Growth.ofRounds (.ofScene .empty) rs).rounds.length = rs.length :=
      List.length_map _
    have hexpansions : ∀ r : Round, r.account.expansions = r.tips.length := fun r =>
      (List.length_map _).symm
    refine
      { told := rfl
        numbered := ?_
        bounded := hlength ▸ journalFrom_length hjournal
        stops := fun hlt => journal_stops hjournal (hlength ▸ hlt)
        first := fun r hr => ?_
        next := fun i r r' hr hr' => ?_
        openTips := fun r _ => ⟨List.filter_sublist, fun id => Round.mem_openTips⟩
        consecutive := fun t ht => ?_
        created := journal_created hjournal
        disjoint := (List.nodup_flatMap.mp hnodup).2
        counted := ?_
        tips_nodup := ?_
        cost := afterRounds_cost _ rs }
    · show (rs.map Round.account).map (·.round) = List.range (rs.map Round.account).length
      rw [List.map_map, List.length_map, List.range_eq_range']
      exact journalFrom_numbers hjournal
    · rw [hexpansions, hhead r (by rwa [List.head?_eq_getElem?])]
      exact ⟨rfl, rfl⟩
    · rw [hexpansions, journal_next hjournal hr hr', List.length_map, nextTips, List.length_take]
      exact ⟨rfl, rfl⟩
    · obtain ⟨rule, place, hgrows⟩ := journalFrom_grows hjournal t ht
      obtain ⟨-, hsince⟩ := hgrows.scene
      rw [Turn.created, hsince, Scene.since, List.length_range']
    · show 1 + ((rs.map Round.account).map (·.nodesCreated)).sum = _
      rw [List.map_map]
      exact journal_counted hjournal
    · rw [List.flatMap_assoc] at hnodup
      exact List.Nodup.sublist (journalFrom_tips hjournal) hnodup
  · cases h

/-- A rule that grows two nodes, each with a point where growth can go on. -/
def twin : Grammar :=
  ⟨[("twin", .plain fun _ place => do
    for _ in [(), ()] do
      let node : NodeId ← Build.perform (.add .identity)
      let tip : Point Float32 ← Build.perform (.register node "tip" .zero)
      Build.perform (.join tip place))]⟩

/-- Two rounds of the rule, the second at both tips of the first. -/
def twice : Plan := ⟨"twin", "twin", "tip", 0, 2, 1, 5⟩

theorem twice_turns : ∃ ts stream₁ ts' stream',
    twice.turns twin (GuidedSession.ofGuides []) "twin" [none] (.ofScene .empty) (.ofSeed 0) =
      .ok ts stream₁ ∧
    twice.nextTips ⟨0, ts, afterTurns (.ofScene .empty) ts⟩ = [1, 2] ∧
    twice.turns twin (GuidedSession.ofGuides []) "twin" [some 1, some 2]
      (afterTurns (.ofScene .empty) ts) stream₁ = .ok ts' stream' := by
  -- The queue of an expansion does not evaluate, its levels do.
  simp only [turns, Contest.select, twice, place, Stream.children, Contest.candidates,
    Contest.candidate, Grammar.expand_eq_levels]
  exact ⟨_, _, _, _, rfl, rfl, rfl⟩

theorem grow_bookkept_twice : ∃ growth stream' rs,
    twice.grow twin (GuidedSession.ofGuides []) (.ofSeed 0) = .ok growth stream' ∧
    growth.rounds.map (·.expansions) = [1, 2] ∧ Bookkept twice growth rs := by
  obtain ⟨ts, stream₁, ts', stream', hfirst, hnext, hsecond⟩ := twice_turns
  have hjournal : twice.journal twin (GuidedSession.ofGuides []) (.ofSeed 0) =
      .ok [⟨0, ts, _⟩, ⟨1, ts', _⟩] stream' :=
    journalFrom_cons hfirst (by rw [hnext]; exact journalFrom_cons hsecond rfl)
  have hgrow := grow_of_journal hjournal
  obtain ⟨rs, -, hbooks⟩ := grow_bookkept twice twin (GuidedSession.ofGuides []) hgrow
  refine ⟨_, _, rs, hgrow, ?_, hbooks⟩
  have htips : ts.length = 1 ∧ ts'.length = 2 :=
    ⟨by simpa using congrArg List.length (turns_tips hfirst),
      by simpa using congrArg List.length (turns_tips hsecond)⟩
  show [ts.length, ts'.length] = [1, 2]
  rw [htips.1, htips.2]

end Plan

end Espalier
