import Espalier.Proofs.Search.Bookkeeping
import Espalier.Proofs.Search.Progress

/-!
# Tips are still there when they are expanded

A run chooses its tips at the end of a round and looks each of them up again when its turn comes, in
a scene that other turns of the round have grown since. However the bodies edit it, that scene has
evolved from the one in which the tip was chosen, through a copy of it for each candidate, so it
still has the node and the point. A run hence fails only where a selection does.

Results:
1. `Reaches.places`: growth can go on at all tips that a run has yet to expand.
2. `Reaches.turns`, `journal_carried`: a run goes from stage to stage until a selection fails.
3. `Reaches.journal_error`: where a selection fails, the run does.
4. `grow_tips_resolve`: what a run looks up, and what it fails with.
-/

namespace Espalier

/-- A stage of a run: what was done of a round, the `outcome` being the specimen at this point. -/
structure Stage extends Round where
  /-- The tips that the round has yet to expand. -/
  ahead : List (Option NodeId)
  stream : Stream

namespace Plan

variable {σ : Type} [CostFunction σ]

/-- The selection that expands a place in a round. -/
def contest (plan : Plan) (grammar : Grammar) (session : σ) (r : Round)
    (place : Option (Point Float32)) : Contest σ :=
  ⟨r.outcome, grammar, ⟨plan.rule r.number, plan.depth, place⟩, session⟩

/-- A run of the plan comes to this stage. -/
inductive Reaches (plan : Plan) (grammar : Grammar) (session : σ) (stream : Stream) : Stage → Prop
  | start (rounds : plan.rounds.toNat ≠ 0) :
      Reaches plan grammar session stream ⟨⟨0, [], .ofScene .empty⟩, [none], stream⟩
  | turn {r : Round} {tip : Option NodeId} {ahead : List (Option NodeId)} {stream₁ stream₂ : Stream}
      {place : Option (Point Float32)} {kept : Candidate}
      (before : Reaches plan grammar session stream ⟨r, tip :: ahead, stream₁⟩)
      (placed : plan.place r.outcome.scene tip = .ok place)
      (selected : (plan.contest grammar session r place).select plan.candidates stream₁ =
        .ok kept stream₂) :
      Reaches plan grammar session stream
        ⟨⟨r.number, r.turns ++ [⟨tip, r.outcome, kept⟩], kept.specimen⟩, ahead, stream₂⟩
  | round {r : Round} {stream₁ : Stream}
      (before : Reaches plan grammar session stream ⟨r, [], stream₁⟩)
      (more : r.number + 1 < plan.rounds.toNat) (tips : plan.nextTips r ≠ []) :
      Reaches plan grammar session stream
        ⟨⟨r.number + 1, [], r.outcome⟩, (plan.nextTips r).map some, stream₁⟩

/-- The selection at the next tip fails. -/
inductive Fails (plan : Plan) (grammar : Grammar) (session : σ) : Stage → Failure → Stream → Prop
  | select {r : Round} {tip : Option NodeId} {ahead : List (Option NodeId)}
      {stream stream' : Stream} {place : Option (Point Float32)} {f : Failure}
      (placed : plan.place r.outcome.scene tip = .ok place)
      (failed : (plan.contest grammar session r place).select plan.candidates stream =
        .error f stream') :
      Fails plan grammar session ⟨r, tip :: ahead, stream⟩ f stream'

/-- A part of a run ends well and meets the condition, or it ends as a selection that fails at a
stage of the run. -/
def Carried (plan : Plan) (grammar : Grammar) (session : σ) (stream : Stream) {β : Type}
    (Q : β → Stream → Prop) : EStateM.Result Failure Stream β → Prop
  | .ok value stream' => Q value stream'
  | .error f stream' => ∃ st, plan.Reaches grammar session stream st ∧
      plan.Fails grammar session st f stream'

variable {plan : Plan} {grammar : Grammar} {session : σ} {stream stream₁ stream' : Stream}
  {st : Stage} {r : Round} {ahead : List (Option NodeId)} {f : Failure}

namespace Reaches

/-- Growth can go on at all tips that are ahead. -/
theorem places (h : plan.Reaches grammar session stream st) :
    ∀ tip ∈ st.ahead, plan.Places st.outcome.scene tip := by
  induction h with
  | start => exact List.forall_mem_singleton.mpr trivial
  | turn _ _ selected ih =>
    have hevolves := (Contest.select_eq_ok selected).scene.1
    exact fun tip htip => (ih tip (List.mem_cons_of_mem _ htip)).evolves hevolves
  | round _ _ _ ih =>
    intro tip htip
    obtain ⟨id, hid, rfl⟩ := List.mem_map.mp htip
    have hplaces := places_of_mem_nextTips hid
    exact hplaces

theorem place_ok (h : plan.Reaches grammar session stream st) {tip : Option NodeId}
    (htip : tip ∈ st.ahead) : ∃ place, plan.place st.outcome.scene tip = .ok place := by
  have hplaces := h.places tip htip
  cases tip with
  | none => exact ⟨none, rfl⟩
  | some id =>
    obtain ⟨v, hv⟩ := hplaces.point_ok
    exact ⟨some ⟨id, v⟩, by rw [place, hv]; rfl⟩

/-- A round is carried out to its end. -/
theorem turns (h : plan.Reaches grammar session stream ⟨r, ahead, stream₁⟩) :
    plan.Carried grammar session stream (fun ts stream₂ => plan.Reaches grammar session stream
        ⟨⟨r.number, r.turns ++ ts, afterTurns r.outcome ts⟩, [], stream₂⟩)
      (plan.turns grammar session (plan.rule r.number) ahead r.outcome stream₁) := by
  induction ahead generalizing r stream₁ with
  | nil =>
    rw [Plan.turns, Carried, List.append_nil]
    exact h
  | cons tip ahead ih =>
    obtain ⟨place, hplace⟩ := h.place_ok List.mem_cons_self
    cases hselect : (plan.contest grammar session r place).select plan.candidates stream₁ with
    | error f stream₂ =>
      have hfails : plan.Fails grammar session ⟨r, tip :: ahead, stream₁⟩ f stream₂ :=
        .select hplace hselect
      rw [contest] at hselect
      simp only [Plan.turns, hplace, hselect]
      exact ⟨_, h, hfails⟩
    | ok kept stream₂ =>
      -- The turns ahead begin at the stage behind this one, which has one turn more.
      have hlater := ih (h.turn hplace hselect)
      rw [contest] at hselect
      simp only [Plan.turns, hplace, hselect]
      dsimp only at hlater
      cases hturns :
        plan.turns grammar session (plan.rule r.number) ahead kept.specimen stream₂ with
      | error f stream₃ =>
        rw [hturns] at hlater
        exact hlater
      | ok ts stream₃ =>
        rw [hturns, Carried, List.append_assoc] at hlater
        exact hlater

/-- A run is carried out to the end of a round. -/
theorem journalFrom {remaining number : Nat} {specimen : Specimen}
    (h : plan.Reaches grammar session stream ⟨⟨number, [], specimen⟩, ahead, stream₁⟩)
    (hrest : number + remaining = plan.rounds.toNat) (hmore : remaining ≠ 0) (hahead : ahead ≠ []) :
    plan.Carried grammar session stream (fun rs stream₂ => ∃ r,
        r.outcome = afterRounds specimen rs ∧ plan.Reaches grammar session stream ⟨r, [], stream₂⟩)
      (plan.journalFrom grammar session remaining number ahead specimen stream₁) := by
  induction remaining generalizing number ahead specimen stream₁ with
  | zero => exact absurd rfl hmore
  | succ remaining ih =>
    obtain ⟨tip, ahead, rfl⟩ := List.exists_cons_of_ne_nil hahead
    have hturns := h.turns
    rw [Plan.journalFrom]
    dsimp only at hturns ⊢
    cases hround :
      plan.turns grammar session (plan.rule number) (tip :: ahead) specimen stream₁ with
    | error f stream₂ =>
      rw [hround] at hturns
      exact hturns
    | ok ts stream₂ =>
      rw [hround, Carried, List.nil_append] at hturns
      dsimp only
      -- The run ends here if it has made its last round, or if no tip is open.
      cases remaining with
      | zero => exact ⟨_, rfl, hturns⟩
      | succ remaining =>
        cases htips : plan.nextTips ⟨number, ts, afterTurns specimen ts⟩ with
        | nil => exact ⟨_, rfl, hturns⟩
        | cons id ids =>
          have hmore : number + 1 < plan.rounds.toNat := by omega
          have hround := hturns.round hmore (by rw [htips]; exact List.cons_ne_nil _ _)
          rw [htips] at hround
          have hlater := ih hround (by rw [← hrest]; exact Nat.add_right_comm _ _ _)
            (Nat.succ_ne_zero _) (List.cons_ne_nil _ _)
          dsimp only at hlater ⊢
          cases hrounds : plan.journalFrom grammar session (remaining + 1) (number + 1)
              ((id :: ids).map some) (afterTurns specimen ts) stream₂ with
          | error f stream₃ =>
            rw [hrounds] at hlater
            exact hlater
          | ok rs stream₃ =>
            rw [hrounds] at hlater
            exact hlater

end Reaches

/-! ## What a stage comes to -/

/-- The rounds of a run from the one of a stage on, as far as this one has come. -/
def finish (plan : Plan) (grammar : Grammar) (session : σ) (st : Stage) :
    EStateM.Result Failure Stream (List Round) :=
  match plan.turns grammar session (plan.rule st.number) st.ahead st.outcome st.stream with
  | .error f stream => .error f stream
  | .ok ts stream =>
    let r : Round := ⟨st.number, st.turns ++ ts, afterTurns st.outcome ts⟩
    match plan.journalFrom grammar session (plan.rounds.toNat - (st.number + 1)) (st.number + 1)
        ((plan.nextTips r).map some) r.outcome stream with
    | .error f stream => .error f stream
    | .ok rs stream => .ok (r :: rs) stream

theorem finish_of_fails (h : plan.Fails grammar session st f stream') :
    plan.finish grammar session st = .error f stream' := by
  cases h with
  | select placed failed =>
    rw [contest] at failed
    simp only [finish, turns, placed, failed]

/-- A turn is part of what its stage comes to. -/
theorem finish_turn {tip : Option NodeId} {stream₂ : Stream} {place : Option (Point Float32)}
    {kept : Candidate} (placed : plan.place r.outcome.scene tip = .ok place)
    (selected : (plan.contest grammar session r place).select plan.candidates stream₁ =
      .ok kept stream₂) :
    plan.finish grammar session ⟨r, tip :: ahead, stream₁⟩ = plan.finish grammar session
      ⟨⟨r.number, r.turns ++ [⟨tip, r.outcome, kept⟩], kept.specimen⟩, ahead, stream₂⟩ := by
  rw [contest] at selected
  simp only [finish, turns, placed, selected]
  cases plan.turns grammar session (plan.rule r.number) ahead kept.specimen stream₂ with
  | error f stream₃ => rfl
  | ok ts stream₃ => simp only [afterTurns, List.append_assoc, List.singleton_append]

/-- The rounds from one on are those of the stage that it begins with. -/
theorem journalFrom_eq_finish {remaining number : Nat} {specimen : Specimen}
    (hrest : number + remaining = plan.rounds.toNat) (hmore : remaining ≠ 0) (hahead : ahead ≠ []) :
    plan.journalFrom grammar session remaining number ahead specimen stream =
      plan.finish grammar session ⟨⟨number, [], specimen⟩, ahead, stream⟩ := by
  obtain ⟨remaining, rfl⟩ := Nat.exists_eq_succ_of_ne_zero hmore
  obtain ⟨tip, ahead, rfl⟩ := List.exists_cons_of_ne_nil hahead
  have hremaining : plan.rounds.toNat - (number + 1) = remaining := by omega
  cases hturns : plan.turns grammar session (plan.rule number) (tip :: ahead) specimen stream with
  | error f stream₁ => simp only [journalFrom, finish, hturns]
  | ok ts stream₁ =>
    cases hlater : plan.journalFrom grammar session remaining (number + 1)
        ((plan.nextTips ⟨number, ts, afterTurns specimen ts⟩).map some) (afterTurns specimen ts)
        stream₁ <;>
      simp only [journalFrom, finish, hturns, hremaining, List.nil_append, hlater]

/-- A run fails as the stages that it comes to. -/
theorem Reaches.journal_error (h : plan.Reaches grammar session stream st)
    (herror : plan.finish grammar session st = .error f stream') :
    plan.journal grammar session stream = .error f stream' := by
  induction h with
  | start rounds =>
    rw [journal, journalFrom_eq_finish (Nat.zero_add _) rounds (List.cons_ne_nil _ _), herror]
  | turn before placed selected ih =>
    refine ih ?_
    rw [finish_turn placed selected, herror]
  | @round r _ before more tips ih =>
    refine ih ?_
    have hmore := Nat.sub_ne_zero_of_lt more
    have hahead : (plan.nextTips r).map some ≠ [] := by simpa using tips
    simp only [finish, Plan.turns, List.append_nil, afterTurns]
    rw [journalFrom_eq_finish (Nat.add_sub_cancel' (Nat.le_of_lt more)) hmore hahead, herror]

theorem grow_error_iff {stream' : Stream} : plan.grow grammar session stream = .error f stream' ↔
    plan.journal grammar session stream = .error f stream' := by
  simp only [grow_eq_journal, Functor.map, EStateM.map]
  cases plan.journal grammar session stream <;> simp

/-- A run that may make a round is carried out to the end of one. -/
theorem journal_carried (plan : Plan) (grammar : Grammar) (session : σ) (stream : Stream)
    (hrounds : plan.rounds.toNat ≠ 0) :
    plan.Carried grammar session stream (fun rs stream' => ∃ r,
        r.outcome = afterRounds (.ofScene .empty) rs ∧
          plan.Reaches grammar session stream ⟨r, [], stream'⟩)
      (plan.journal grammar session stream) :=
  (Reaches.start hrounds).journalFrom (Nat.zero_add _) hrounds (List.cons_ne_nil _ _)

/-- A run looks up its tips in scenes that have them, with the point for it. It fails if and only
if it comes to a selection that does, with the same failure, and otherwise it comes to the end of a
round with the specimen that it answers. -/
theorem grow_tips_resolve (plan : Plan) (grammar : Grammar) (session : σ) (stream : Stream) :
    (∀ r id ahead stream₁,
      plan.Reaches grammar session stream ⟨r, some id :: ahead, stream₁⟩ →
        r.outcome.scene.contains id ∧ ∃ v, r.outcome.scene.point id plan.tipPoint = .ok ⟨id, v⟩) ∧
    (∀ f stream', plan.grow grammar session stream = .error f stream' ↔
      ∃ st, plan.Reaches grammar session stream st ∧ plan.Fails grammar session st f stream') ∧
    ∀ growth stream', plan.grow grammar session stream = .ok growth stream' →
      plan.rounds.toNat ≠ 0 → ∃ r, r.outcome = growth.specimen ∧
        plan.Reaches grammar session stream ⟨r, [], stream'⟩ := by
  refine ⟨fun r id ahead stream₁ h => ?_, fun f stream' => ⟨fun h => ?_, ?_⟩,
    fun growth stream' h hrounds => ?_⟩
  · have hplaces := h.places _ List.mem_cons_self
    exact ⟨hplaces.1, hplaces.point_ok⟩
  · rw [grow_error_iff] at h
    have hrounds : plan.rounds.toNat ≠ 0 := by
      intro hnone
      rw [journal, hnone] at h
      cases h
    have hcarried := journal_carried plan grammar session stream hrounds
    rwa [h] at hcarried
  · rintro ⟨st, hreaches, hfails⟩
    exact grow_error_iff.mpr (hreaches.journal_error (finish_of_fails hfails))
  · obtain ⟨rs, hjournal, rfl⟩ := journal_of_grow h
    have hcarried := journal_carried plan grammar session stream hrounds
    rwa [hjournal] at hcarried

/-- The second round of a run that expands two tips, before the first of them. -/
theorem grow_tips_resolve_twice : ∃ r stream₁,
    twice.Reaches twin (GuidedSession.ofGuides []) (.ofSeed 0) ⟨r, [some 1, some 2], stream₁⟩ ∧
    r.number = 1 ∧ r.outcome.scene.contains 1 ∧
    ∃ v, r.outcome.scene.point 1 "tip" = .ok ⟨1, v⟩ := by
  obtain ⟨ts, stream₁, -, -, hfirst, hnext, -⟩ := twice_turns
  have hstart : twice.Reaches twin (GuidedSession.ofGuides []) (.ofSeed 0)
      ⟨⟨0, [], .ofScene .empty⟩, [none], .ofSeed 0⟩ := .start (by decide)
  have hturns := hstart.turns
  have hrule : twice.rule 0 = "twin" := rfl
  rw [hrule, hfirst] at hturns
  have hmore : 0 + 1 < twice.rounds.toNat := by decide
  have htips : twice.nextTips ⟨0, [] ++ ts, afterTurns (.ofScene .empty) ts⟩ ≠ [] := by
    rw [List.nil_append, hnext]
    exact List.cons_ne_nil _ _
  have hround := hturns.round hmore htips
  rw [List.nil_append, hnext] at hround
  obtain ⟨hresolve, -, -⟩ :=
    grow_tips_resolve twice twin (GuidedSession.ofGuides []) (.ofSeed 0)
  exact ⟨_, _, hround, rfl, hresolve _ _ _ _ hround⟩

end Plan

end Espalier
