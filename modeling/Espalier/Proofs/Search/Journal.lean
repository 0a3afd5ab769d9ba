import Espalier.Proofs.Grammar.Levels
import Espalier.Search.Rounds

/-!
# The journal of a run

A run of guided growth answers its last specimen and one line per round. The journal is the same
run with all that it did on the way written down: for each round its turns, for each turn the tip
that was expanded, the specimen before and the candidate that was kept.

Results:
1. `select_eq_ok`: what a selection keeps was grown from its base and was charged for the new nodes.
2. `grow_eq_journal`: a run is its journal, summed up.
3. `turns_created`, `journalFrom_created`: what is created turn by turn is what the scene gains.
4. `journalFrom_threaded`: a run is a thread of turns, each from where the one before has ended.
-/

namespace Espalier

/-! ## What a selection keeps -/

namespace Candidate

theorem all?_eq_ok {outcomes : List (Except Failure Candidate)} {cs : List Candidate}
    (h : all? outcomes = .ok cs) : outcomes = cs.map .ok := by
  induction outcomes generalizing cs with
  | nil => cases h; rfl
  | cons outcome rest ih =>
    cases outcome with
    | error f => cases h
    | ok c =>
      rw [all?] at h
      cases hrest : all? rest with
      | error f => rw [hrest] at h; cases h
      | ok cs' =>
        rw [hrest] at h
        cases h
        rw [List.map_cons, ← ih hrest]

theorem foldl_cheaper_mem (first : Candidate) (rest : List Candidate) :
    rest.foldl cheaper first ∈ first :: rest := by
  induction rest generalizing first with
  | nil => exact List.mem_cons_self
  | cons next rest ih =>
    have hcheaper : cheaper first next = first ∨ cheaper first next = next := by
      unfold cheaper
      split
      · exact .inr rfl
      · exact .inl rfl
    rw [List.foldl_cons]
    rcases List.mem_cons.mp (ih (cheaper first next)) with h | h
    · rw [h]
      rcases hcheaper with h | h <;> simp [h]
    · exact List.mem_cons_of_mem _ (List.mem_cons_of_mem _ h)

/-- If some outcomes have a best one, all of them are candidates, and it is what the search through
them finds. -/
theorem best_found {outcomes : List (Except Failure Candidate)} {c : Candidate}
    (h : best outcomes = .ok c) :
    ∃ first rest, outcomes = (first :: rest).map .ok ∧ c = rest.foldl cheaper first := by
  unfold best at h
  split at h
  · cases h
  · split at h
    · cases h
    · cases h
    next first rest hall =>
      cases h
      exact ⟨first, rest, all?_eq_ok hall, rfl⟩

/-- The best of some outcomes is one of them. -/
theorem best_eq_ok {outcomes : List (Except Failure Candidate)} {c : Candidate}
    (h : best outcomes = .ok c) : .ok c ∈ outcomes := by
  obtain ⟨first, rest, rfl, rfl⟩ := best_found h
  exact List.mem_map_of_mem (foldl_cheaper_mem first rest)

end Candidate

namespace Contest

variable {σ : Type} {a : Access} [CostFunction σ]

/-- The candidate was grown from the base of the contest and charged for the nodes it gained. -/
structure Grows (c : Contest σ a) (kept : Candidate) : Prop where
  expanded : ∃ stream ground,
    c.grammar.expand c.expansion ⟨c.base.scene, stream, []⟩ = .ok kept.report ground ∧
      kept.specimen.scene = ground.scene
  charged : kept.specimen.cost =
    (CostFunction.score (CostFunction.fresh c.session)
      ⟨kept.specimen.scene, c.base.cost⟩ kept.report.created).1

theorem candidate_eq_ok {c : Contest σ a} {index : Nat} {stream : Stream} {kept : Candidate}
    (h : c.candidate index stream = .ok kept) : Grows c kept := by
  unfold candidate at h
  split at h
  · cases h
  next report ground hexpand =>
    cases h
    exact ⟨⟨stream, ground, hexpand, rfl⟩, rfl⟩

theorem mem_candidates {c : Contest σ a} {outcome : Except Failure Candidate} {index : Nat}
    {streams : List Stream} (h : outcome ∈ c.candidates index streams) :
    ∃ i stream, outcome = c.candidate i stream := by
  induction streams generalizing index with
  | nil => cases h
  | cons stream streams ih =>
    rcases List.mem_cons.mp h with rfl | h
    · exact ⟨index, stream, rfl⟩
    · exact ih h

/-- What a selection keeps was grown from its base. -/
theorem select_eq_ok {c : Contest σ a} {count : Nat} {stream stream' : Stream} {kept : Candidate}
    (h : c.select count stream = .ok kept stream') : Grows c kept := by
  unfold select at h
  split at h
  next hbest =>
    cases h
    obtain ⟨i, stream, hmem⟩ := mem_candidates (Candidate.best_eq_ok hbest)
    exact candidate_eq_ok hmem.symm
  · cases h

/-- A kept candidate created the nodes that its scene has gained. -/
theorem Grows.scene {c : Contest σ} {kept : Candidate} (h : Grows c kept) :
    Scene.Evolves c.base.scene kept.specimen.scene ∧
      kept.report.created = kept.specimen.scene.since c.base.scene.size := by
  obtain ⟨stream, ground, hexpand, hscene⟩ := h.expanded
  obtain ⟨ls, hlevels, hreport⟩ := Grammar.expand_eq_ok.mp hexpand
  have hevolves := Grammar.levels_evolves (g := c.grammar) c.expansion.first
    (c.expansion.depth.toNat + 1) ⟨c.base.scene, stream, []⟩
  rw [hlevels] at hevolves
  rw [hscene, hreport]
  exact ⟨hevolves, Grammar.levels_pushed hlevels⟩

end Contest

/-! ## Journals -/

/-- One expansion of a run. -/
structure Turn where
  /-- The tip that was expanded, or none for the root. -/
  tip : Option NodeId
  base : Specimen
  kept : Candidate

/-- The nodes that a turn added. -/
def Turn.created (t : Turn) : List NodeId := t.kept.report.created

/-- One round of a run. -/
structure Round where
  number : Nat
  turns : List Turn
  /-- The specimen at the end of the round. -/
  outcome : Specimen

namespace Round

/-- The nodes that a round added. -/
def created (r : Round) : List NodeId := r.turns.flatMap Turn.created

/-- The tips that a round expanded, or none for the root. -/
def tips (r : Round) : List (Option NodeId) := r.turns.map (·.tip)

/-- The nodes that a round added and where growth can go on at its end. -/
def openTips (r : Round) (tipPoint : String) : List NodeId :=
  r.outcome.scene.growingTips r.created tipPoint

def account (r : Round) : RoundAccount :=
  ⟨r.number, r.turns.length, r.created.length, r.outcome.cost⟩

end Round

/-- The specimen after some turns. -/
def afterTurns (specimen : Specimen) : List Turn → Specimen
  | [] => specimen
  | t :: ts => afterTurns t.kept.specimen ts

/-- Each turn starts where the one before has ended, the first from the given specimen. -/
def Threaded (specimen : Specimen) : List Turn → Prop
  | [] => True
  | t :: ts => t.base = specimen ∧ Threaded t.kept.specimen ts

theorem afterTurns_append (specimen : Specimen) (ts ts' : List Turn) :
    afterTurns specimen (ts ++ ts') = afterTurns (afterTurns specimen ts) ts' := by
  induction ts generalizing specimen with
  | nil => rfl
  | cons t ts ih => exact ih t.kept.specimen

theorem threaded_append {specimen : Specimen} {ts ts' : List Turn} (h : Threaded specimen ts)
    (h' : Threaded (afterTurns specimen ts) ts') : Threaded specimen (ts ++ ts') := by
  induction ts generalizing specimen with
  | nil => exact h'
  | cons t ts ih => exact ⟨h.1, ih h.2 h'⟩

/-- The specimen after some rounds. -/
def afterRounds (specimen : Specimen) : List Round → Specimen
  | [] => specimen
  | r :: rs => afterRounds r.outcome rs

/-- What is told of a run that made the given rounds. -/
def Growth.ofRounds (specimen : Specimen) (rs : List Round) : Growth :=
  ⟨afterRounds specimen rs, rs.map Round.account⟩

namespace Plan

variable {σ : Type} {a : Access} [CostFunction σ]

/-- The rule that a round expands. -/
def rule (plan : Plan) (round : Nat) : String :=
  if round = 0 then plan.start else plan.continueWith

/-- The tips that are expanded in the round after the given one. -/
def nextTips (plan : Plan) (r : Round) : List NodeId :=
  (r.openTips plan.tipPoint).take plan.maxTips

/-- The turns of a round. -/
def turns (plan : Plan) (grammar : Grammar a) (session : σ) (rule : String) :
    (tips : List (Option NodeId)) → Specimen → EStateM Failure Stream (List Turn)
  | [], _, stream => .ok [] stream
  | tip :: tips, specimen, stream =>
    match plan.place specimen.scene tip with
    | .error f => .error f stream
    | .ok place =>
      match (Contest.mk specimen grammar ⟨rule, plan.depth, place⟩ session).select
          plan.candidates stream with
      | .error f stream => .error f stream
      | .ok kept stream =>
        match plan.turns grammar session rule tips kept.specimen stream with
        | .error f stream => .error f stream
        | .ok ts stream => .ok (⟨tip, specimen, kept⟩ :: ts) stream

/-- The rounds from a given one on. -/
def journalFrom (plan : Plan) (grammar : Grammar a) (session : σ) :
    (remaining : Nat) → (round : Nat) → (tips : List (Option NodeId)) → Specimen →
    EStateM Failure Stream (List Round)
  | 0, _, _, _, stream => .ok [] stream
  | _ + 1, _, [], _, stream => .ok [] stream
  | remaining + 1, round, tip :: tips, specimen, stream =>
    match plan.turns grammar session (plan.rule round) (tip :: tips) specimen stream with
    | .error f stream => .error f stream
    | .ok ts stream =>
      let r : Round := ⟨round, ts, afterTurns specimen ts⟩
      match plan.journalFrom grammar session remaining (round + 1) ((plan.nextTips r).map some)
          r.outcome stream with
      | .error f stream => .error f stream
      | .ok rs stream => .ok (r :: rs) stream

/-- The rounds of a run. -/
def journal (plan : Plan) (grammar : Grammar a) (session : σ) :
    EStateM Failure Stream (List Round) :=
  plan.journalFrom grammar session plan.rounds.toNat 0 [none] (.ofScene .empty)

variable {plan : Plan} {grammar : Grammar a} {session : σ} {rule : String}

/-! ## Reading a journal -/

theorem turns_cons_ok {tip : Option NodeId} {tips : List (Option NodeId)} {specimen : Specimen}
    {ts : List Turn} {stream stream' : Stream}
    (h : plan.turns grammar session rule (tip :: tips) specimen stream = .ok ts stream') :
    ∃ place kept stream₁ later, plan.place specimen.scene tip = .ok place ∧
      (Contest.mk specimen grammar ⟨rule, plan.depth, place⟩ session).select
        plan.candidates stream = .ok kept stream₁ ∧
      plan.turns grammar session rule tips kept.specimen stream₁ = .ok later stream' ∧
      ts = ⟨tip, specimen, kept⟩ :: later := by
  rw [turns] at h
  split at h
  · cases h
  next place hplace =>
    split at h
    · cases h
    next kept stream₁ hselect =>
      split at h
      · cases h
      next later stream₂ hlater =>
        cases h
        exact ⟨place, kept, stream₁, later, hplace, hselect, hlater, rfl⟩

theorem journalFrom_cons_ok {remaining round : Nat} {tip : Option NodeId}
    {tips : List (Option NodeId)} {specimen : Specimen} {rs : List Round}
    {stream stream' : Stream}
    (h : plan.journalFrom grammar session (remaining + 1) round (tip :: tips) specimen stream =
      .ok rs stream') :
    ∃ r stream₁ later, r.number = round ∧ r.outcome = afterTurns specimen r.turns ∧
      plan.turns grammar session (plan.rule round) (tip :: tips) specimen stream =
        .ok r.turns stream₁ ∧
      plan.journalFrom grammar session remaining (round + 1) ((plan.nextTips r).map some)
        r.outcome stream₁ = .ok later stream' ∧
      rs = r :: later := by
  rw [journalFrom] at h
  split at h
  · cases h
  next ts stream₁ hturns =>
    dsimp only at h
    split at h
    · cases h
    next later stream₂ hlater =>
      cases h
      exact ⟨⟨round, ts, afterTurns specimen ts⟩, stream₁, later, rfl, rfl, hturns, hlater, rfl⟩

/-- A round goes on from the candidate that a selection keeps. -/
theorem turns_cons {tip : Option NodeId} {tips : List (Option NodeId)} {specimen : Specimen}
    {place : Option (Point Float32)} {kept : Candidate} {later : List Turn}
    {stream stream₁ stream' : Stream} (hplace : plan.place specimen.scene tip = .ok place)
    (hselect : (Contest.mk specimen grammar ⟨rule, plan.depth, place⟩ session).select
      plan.candidates stream = .ok kept stream₁)
    (hlater : plan.turns grammar session rule tips kept.specimen stream₁ = .ok later stream') :
    plan.turns grammar session rule (tip :: tips) specimen stream =
      .ok (⟨tip, specimen, kept⟩ :: later) stream' := by
  simp only [turns, hplace, hselect, hlater]

/-- A run goes on from the end of a round. -/
theorem journalFrom_cons {remaining round : Nat} {tip : Option NodeId}
    {tips : List (Option NodeId)} {specimen : Specimen} {ts : List Turn} {later : List Round}
    {stream stream₁ stream' : Stream}
    (hturns : plan.turns grammar session (plan.rule round) (tip :: tips) specimen stream =
      .ok ts stream₁)
    (hlater : plan.journalFrom grammar session remaining (round + 1)
      ((plan.nextTips ⟨round, ts, afterTurns specimen ts⟩).map some) (afterTurns specimen ts)
      stream₁ = .ok later stream') :
    plan.journalFrom grammar session (remaining + 1) round (tip :: tips) specimen stream =
      .ok (⟨round, ts, afterTurns specimen ts⟩ :: later) stream' := by
  simp only [journalFrom, hturns, hlater]

/-- The turns of a round expand its tips, in order. -/
theorem turns_tips {tips : List (Option NodeId)} {specimen : Specimen} {ts : List Turn}
    {stream stream' : Stream}
    (h : plan.turns grammar session rule tips specimen stream = .ok ts stream') :
    ts.map (·.tip) = tips := by
  induction tips generalizing specimen ts stream with
  | nil => cases h; rfl
  | cons tip tips ih =>
    obtain ⟨place, kept, stream₁, later, -, -, hlater, rfl⟩ := turns_cons_ok h
    rw [List.map_cons, ih hlater]

theorem turns_length {tips : List (Option NodeId)} {specimen : Specimen} {ts : List Turn}
    {stream stream' : Stream}
    (h : plan.turns grammar session rule tips specimen stream = .ok ts stream') :
    ts.length = tips.length := by
  rw [← turns_tips h, List.length_map]

/-- Every turn keeps what a selection on its base, at the place of its tip, has grown. -/
theorem turns_grows {tips : List (Option NodeId)} {specimen : Specimen} {ts : List Turn}
    {stream stream' : Stream}
    (h : plan.turns grammar session rule tips specimen stream = .ok ts stream') :
    ∀ t ∈ ts, ∃ place, plan.place t.base.scene t.tip = .ok place ∧
      Contest.Grows ⟨t.base, grammar, ⟨rule, plan.depth, place⟩, session⟩ t.kept := by
  induction tips generalizing specimen ts stream with
  | nil => cases h; simp
  | cons tip tips ih =>
    obtain ⟨place, kept, stream₁, later, hplace, hselect, hlater, rfl⟩ := turns_cons_ok h
    intro t ht
    rcases List.mem_cons.mp ht with rfl | ht
    · exact ⟨place, hplace, Contest.select_eq_ok hselect⟩
    · exact ih hlater t ht

/-- What is created turn by turn is what the scene gains. -/
theorem turns_created {grammar : Grammar} {tips : List (Option NodeId)} {specimen : Specimen}
    {ts : List Turn} {stream stream' : Stream}
    (h : plan.turns grammar session rule tips specimen stream = .ok ts stream') :
    Scene.Evolves specimen.scene (afterTurns specimen ts).scene ∧
      ts.flatMap Turn.created = (afterTurns specimen ts).scene.since specimen.scene.size := by
  induction tips generalizing specimen ts stream with
  | nil => cases h; exact ⟨Scene.evolves_refl _, (Scene.since_self _).symm⟩
  | cons tip tips ih =>
    obtain ⟨place, kept, stream₁, later, -, hselect, hlater, rfl⟩ := turns_cons_ok h
    obtain ⟨hfirst, hcreated⟩ := (Contest.select_eq_ok hselect).scene
    obtain ⟨hevolves, hrest⟩ := ih hlater
    refine ⟨Scene.evolves_trans hfirst hevolves, ?_⟩
    rw [List.flatMap_cons, hrest, Turn.created, hcreated]
    exact Scene.since_append_of_evolves hfirst hevolves

/-- What holds where a run stops, and of a run that begins with a round if it holds of the rest of
it, holds of every run. -/
theorem journalFrom_invariant
    {P : (remaining round : Nat) → List (Option NodeId) → Specimen → List Round → Prop}
    (stop : ∀ remaining round tips specimen, remaining = 0 ∨ tips = [] →
      P remaining round tips specimen [])
    (round : ∀ remaining round tips specimen r later stream stream', r.number = round →
      r.outcome = afterTurns specimen r.turns →
      plan.turns grammar session (plan.rule round) tips specimen stream = .ok r.turns stream' →
      P remaining (round + 1) ((plan.nextTips r).map some) r.outcome later →
      P (remaining + 1) round tips specimen (r :: later))
    {remaining number : Nat} {tips : List (Option NodeId)} {specimen : Specimen}
    {rs : List Round} {stream stream' : Stream}
    (h : plan.journalFrom grammar session remaining number tips specimen stream = .ok rs stream') :
    P remaining number tips specimen rs := by
  induction remaining generalizing number tips specimen rs stream with
  | zero => cases h; exact stop _ _ _ _ (.inl rfl)
  | succ remaining ih =>
    cases tips with
    | nil => cases h; exact stop _ _ _ _ (.inr rfl)
    | cons tip tips =>
      obtain ⟨r, stream₁, later, hnumber, houtcome, hturns, hlater, rfl⟩ := journalFrom_cons_ok h
      exact round _ _ _ _ r later stream stream₁ hnumber houtcome hturns (ih hlater)

/-- Every turn of a run keeps what a selection on its base has grown. -/
theorem journalFrom_grows {remaining number : Nat} {tips : List (Option NodeId)}
    {specimen : Specimen} {rs : List Round} {stream stream' : Stream}
    (h : plan.journalFrom grammar session remaining number tips specimen stream = .ok rs stream') :
    ∀ t ∈ rs.flatMap (·.turns), ∃ rule place,
      Contest.Grows ⟨t.base, grammar, ⟨rule, plan.depth, place⟩, session⟩ t.kept := by
  refine journalFrom_invariant (P := fun _ _ _ _ rs => ∀ t ∈ rs.flatMap (·.turns), ∃ rule place,
    Contest.Grows ⟨t.base, grammar, ⟨rule, plan.depth, place⟩, session⟩ t.kept) ?_ ?_ h
  · simp
  · intro _ round _ _ r later _ _ _ _ hturns ih t ht
    rw [List.flatMap_cons, List.mem_append] at ht
    rcases ht with ht | ht
    · obtain ⟨place, -, hgrows⟩ := turns_grows hturns t ht
      exact ⟨_, place, hgrows⟩
    · exact ih t ht

/-- What is created round by round is what the scene gains. -/
theorem journalFrom_created {grammar : Grammar} {remaining number : Nat}
    {tips : List (Option NodeId)} {specimen : Specimen} {rs : List Round} {stream stream' : Stream}
    (h : plan.journalFrom grammar session remaining number tips specimen stream = .ok rs stream') :
    Scene.Evolves specimen.scene (afterRounds specimen rs).scene ∧
      rs.flatMap Round.created = (afterRounds specimen rs).scene.since specimen.scene.size := by
  refine journalFrom_invariant (P := fun _ _ _ specimen rs =>
    Scene.Evolves specimen.scene (afterRounds specimen rs).scene ∧
      rs.flatMap Round.created = (afterRounds specimen rs).scene.since specimen.scene.size) ?_ ?_ h
  · intro _ _ _ specimen _
    exact ⟨Scene.evolves_refl _, (Scene.since_self _).symm⟩
  · rintro _ round _ specimen r later _ _ - houtcome hturns ⟨hevolves, hrest⟩
    obtain ⟨hfirst, hcreated⟩ := turns_created hturns
    rw [← houtcome] at hfirst hcreated
    refine ⟨Scene.evolves_trans hfirst hevolves, ?_⟩
    rw [List.flatMap_cons, hrest, Round.created, hcreated]
    exact Scene.since_append_of_evolves hfirst hevolves

/-! ## One turn after the other -/

theorem turns_threaded {tips : List (Option NodeId)} {specimen : Specimen} {ts : List Turn}
    {stream stream' : Stream}
    (h : plan.turns grammar session rule tips specimen stream = .ok ts stream') :
    Threaded specimen ts := by
  induction tips generalizing specimen ts stream with
  | nil => cases h; trivial
  | cons tip tips ih =>
    obtain ⟨place, kept, stream₁, later, -, -, hlater, rfl⟩ := turns_cons_ok h
    exact ⟨rfl, ih hlater⟩

/-- The turns of all rounds are one thread, which ends where the last round does. -/
theorem journalFrom_threaded {remaining number : Nat} {tips : List (Option NodeId)}
    {specimen : Specimen} {rs : List Round} {stream stream' : Stream}
    (h : plan.journalFrom grammar session remaining number tips specimen stream = .ok rs stream') :
    Threaded specimen (rs.flatMap (·.turns)) ∧
      afterTurns specimen (rs.flatMap (·.turns)) = afterRounds specimen rs := by
  refine journalFrom_invariant (P := fun _ _ _ specimen rs =>
    Threaded specimen (rs.flatMap (·.turns)) ∧
      afterTurns specimen (rs.flatMap (·.turns)) = afterRounds specimen rs) ?_ ?_ h
  · intro _ _ _ _ _
    exact ⟨trivial, rfl⟩
  · rintro _ _ _ specimen r later _ _ - houtcome hturns ⟨hthreaded, hafter⟩
    rw [houtcome] at hthreaded hafter
    rw [List.flatMap_cons, afterTurns_append, hafter, afterRounds, houtcome]
    exact ⟨threaded_append (turns_threaded hturns) hthreaded, rfl⟩

/-! ## A run is its journal -/

theorem expandAll_eq_turns (tips : List (Option NodeId)) (specimen : Specimen) :
    plan.expandAll grammar session rule tips specimen =
      (fun ts => (afterTurns specimen ts, ts.flatMap Turn.created)) <$>
        plan.turns grammar session rule tips specimen := by
  induction tips generalizing specimen with
  | nil => rfl
  | cons tip tips ih =>
    funext stream
    simp only [expandAll, Functor.map, EStateM.map, turns]
    cases plan.place specimen.scene tip with
    | error f => rfl
    | ok place =>
      simp only [bind, EStateM.bind]
      cases (Contest.mk specimen grammar ⟨rule, plan.depth, place⟩ session).select
          plan.candidates stream with
      | error f stream => rfl
      | ok kept stream =>
        simp only [ih, Functor.map, EStateM.map]
        cases plan.turns grammar session rule tips kept.specimen stream with
        | error f stream => rfl
        | ok ts stream => rfl

theorem growRounds_eq_journalFrom (remaining round : Nat) (tips : List (Option NodeId))
    (specimen : Specimen) :
    plan.growRounds grammar session remaining round tips specimen =
      Growth.ofRounds specimen <$>
        plan.journalFrom grammar session remaining round tips specimen := by
  induction remaining generalizing round tips specimen with
  | zero => rfl
  | succ remaining ih =>
    cases tips with
    | nil => rfl
    | cons tip tips =>
      funext stream
      simp only [growRounds, Functor.map, EStateM.map, bind, EStateM.bind, journalFrom,
        expandAll_eq_turns, Plan.rule]
      cases hturns : plan.turns grammar session
          (if round = 0 then plan.start else plan.continueWith) (tip :: tips) specimen stream with
      | error f stream => rfl
      | ok ts stream =>
        simp only [ih, Functor.map, EStateM.map, nextTips, Round.openTips, Round.created,
          ← turns_length hturns]
        cases plan.journalFrom grammar session remaining (round + 1)
            ((((afterTurns specimen ts).scene.growingTips (ts.flatMap Turn.created)
              plan.tipPoint).take plan.maxTips).map some) (afterTurns specimen ts) stream with
        | error f stream => rfl
        | ok rs stream => rfl

/-- A run does what its journal says, and answers the sum of it. -/
theorem grow_eq_journal (plan : Plan) (grammar : Grammar a) (session : σ) :
    plan.grow grammar session =
      Growth.ofRounds (.ofScene .empty) <$> plan.journal grammar session :=
  growRounds_eq_journalFrom _ _ _ _

/-- A run that has a journal ends well. -/
theorem grow_of_journal {rs : List Round} {stream stream' : Stream}
    (h : plan.journal grammar session stream = .ok rs stream') :
    plan.grow grammar session stream = .ok (Growth.ofRounds (.ofScene .empty) rs) stream' := by
  simp only [grow_eq_journal, Functor.map, EStateM.map, h]

/-- A run that ends well has a journal, and answers the sum of it. -/
theorem journal_of_grow {growth : Growth} {stream stream' : Stream}
    (h : plan.grow grammar session stream = .ok growth stream') :
    ∃ rs, plan.journal grammar session stream = .ok rs stream' ∧
      growth = Growth.ofRounds (.ofScene .empty) rs := by
  rw [grow_eq_journal] at h
  simp only [Functor.map, EStateM.map] at h
  split at h
  next rs stream₁ hjournal =>
    cases h
    exact ⟨rs, hjournal, rfl⟩
  · cases h

end Plan

end Espalier
