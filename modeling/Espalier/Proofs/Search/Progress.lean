import Espalier.Proofs.Grammar.Tending
import Espalier.Proofs.Search.Journal

/-!
# Runs that cannot fail

A run fails if an expansion does, if there is no candidate to choose, or if a tip has lost the point
where growth was to go on. With a grammar that tends its scene none of this happens: a candidate
only adds to the scene it starts from, so a tip of one round still has its point when its turn comes
in the next, after the turns of other tips.

Results:
1. `Contest.select_ok`: a selection from candidates that all can be grown keeps one of them.
2. `turns_end`, `journal_ends`: a feasible plan with a grammar that tends is carried out.
3. `journal_planted`: a run that ends well leaves a planted scene, feasible or not.
-/

namespace Espalier

/-! ## Selections -/

namespace Candidate

theorem fault?_map_ok (cs : List Candidate) : fault? (cs.map .ok) = none := by
  induction cs with
  | nil => rfl
  | cons c cs ih => exact ih

theorem all?_map_ok (cs : List Candidate) : all? (cs.map .ok) = .ok cs := by
  induction cs with
  | nil => rfl
  | cons c cs ih =>
    rw [List.map_cons, all?, ih]
    rfl

theorem best_map_ok {cs : List Candidate} (h : cs ≠ []) : ∃ c, best (cs.map .ok) = .ok c := by
  cases cs with
  | nil => exact absurd rfl h
  | cons first rest =>
    refine ⟨rest.foldl cheaper first, ?_⟩
    rw [best, fault?_map_ok]
    simp only [all?_map_ok]

end Candidate

namespace Contest

variable {σ : Type} [CostFunction σ]

theorem candidates_ok {c : Contest σ}
    (h : ∀ index stream, ∃ kept, c.candidate index stream = .ok kept) (index : Nat)
    (streams : List Stream) :
    ∃ cs : List Candidate, cs.length = streams.length ∧
      c.candidates index streams = cs.map .ok := by
  induction streams generalizing index with
  | nil => exact ⟨[], rfl, rfl⟩
  | cons stream streams ih =>
    obtain ⟨kept, hkept⟩ := h index stream
    obtain ⟨cs, hlength, hcs⟩ := ih (index + 1)
    exact ⟨kept :: cs, congrArg Nat.succ hlength, by rw [candidates, hkept, hcs]; rfl⟩

/-- A selection from at least one candidate keeps one if all of them can be grown. -/
theorem select_ok {c : Contest σ} {count : Nat} (hcount : count ≠ 0)
    (h : ∀ index stream, ∃ kept, c.candidate index stream = .ok kept) (stream : Stream) :
    ∃ kept, c.select count stream = .ok kept (stream.advanceBy count) := by
  obtain ⟨cs, hlength, hcs⟩ := candidates_ok h 0 (stream.children count)
  have hne : cs ≠ [] := by
    rintro rfl
    cases count with
    | zero => exact hcount rfl
    | succ count => cases hlength
  obtain ⟨kept, hkept⟩ := Candidate.best_map_ok hne
  exact ⟨kept, by rw [select, hcs, hkept]⟩

end Contest

/-! ## Turns and rounds -/

/-- The turn added to a planted scene. -/
structure Turn.Thrives (t : Turn) : Prop where
  base : Scene.Planted t.base.scene
  kept : Scene.Planted t.kept.specimen.scene
  stays : Scene.Stays t.base.scene t.kept.specimen.scene

namespace Plan

/-- The plan can be carried out with the grammar. -/
structure Feasible (plan : Plan) (g : Grammar) : Prop where
  start : g.contains plan.start
  continueWith : g.contains plan.continueWith
  depth : plan.depth.toNat < deepest
  candidates : plan.candidates ≠ 0

/-- Growth can go on from the root, or from a tip with the point for it. -/
def Places (plan : Plan) (s : Scene Float32) : Option NodeId → Prop
  | none => True
  | some tip => s.contains tip ∧ ∃ v, (s.node tip).point? plan.tipPoint = some v

variable {plan : Plan} {g : Grammar} {s s' : Scene Float32} {tip : Option NodeId}

theorem contains_rule (hstart : g.contains plan.start) (hcontinue : g.contains plan.continueWith)
    (round : Nat) : g.contains (plan.rule round) := by
  unfold Plan.rule
  split
  · exact hstart
  · exact hcontinue

theorem Feasible.rule (h : plan.Feasible g) (round : Nat) : g.contains (plan.rule round) :=
  contains_rule h.start h.continueWith round

/-- Growth can still go on in whatever the scene has become. -/
theorem Places.evolves (h : plan.Places s tip) (hs : Scene.Evolves s s') : plan.Places s' tip := by
  cases tip with
  | none => trivial
  | some tip =>
    obtain ⟨htip, v, hv⟩ := h
    have hgrown := Scene.evolves_extends hs
    exact ⟨Scene.contains_iff.mpr (Nat.lt_of_lt_of_le (Scene.contains_iff.mp htip) hgrown.size), v,
      hgrown.points _ _ _ hv⟩

/-- Growth can still go on where the scene has grown elsewhere. -/
theorem Places.later (h : plan.Places s tip) (hs : Scene.Stays s s') : plan.Places s' tip :=
  h.evolves hs.evolves

/-- The point of a tip where growth can go on. -/
theorem Places.point_ok {id : NodeId} (h : plan.Places s (some id)) :
    ∃ v, s.point id plan.tipPoint = .ok ⟨id, v⟩ := by
  obtain ⟨hid, v, hv⟩ := h
  exact ⟨v, by simp [Scene.point, hid, hv]⟩

theorem Places.place_ok (h : plan.Places s tip) (hs : Scene.Planted s) :
    ∃ place, plan.place s tip = .ok place ∧
      s.contains (place.getD (.origin Scene.root)).node := by
  cases tip with
  | none => exact ⟨none, rfl, hs.forest.root_mem⟩
  | some tip =>
    obtain ⟨v, hv⟩ := h.point_ok
    exact ⟨some ⟨tip, v⟩, by rw [place, hv]; rfl, h.1⟩

theorem places_of_mem_nextTips {r : Round} {id : NodeId} (h : id ∈ plan.nextTips r) :
    plan.Places r.outcome.scene (some id) := by
  have hopen : r.outcome.scene.canGrowAt plan.tipPoint id :=
    (List.mem_filter.mp (List.mem_of_mem_take h)).2
  simp only [Scene.canGrowAt, Scene.isStructural, Bool.and_eq_true] at hopen
  obtain ⟨⟨⟨hid, -⟩, hpoint⟩, -⟩ := hopen
  exact ⟨hid, Option.isSome_iff_exists.mp hpoint⟩

variable {σ : Type} [CostFunction σ] {rule : String} {specimen : Specimen}

/-- A selection of a feasible plan keeps a candidate, which makes a turn that thrives. -/
theorem select_thrives (hg : g.Tends) (hplan : plan.Feasible g) (hrule : g.contains rule)
    (hs : Scene.Planted specimen.scene) {place : Option (Point Float32)}
    (hplace : specimen.scene.contains (place.getD (.origin Scene.root)).node)
    (tip : Option NodeId) (session : σ) (stream : Stream) :
    ∃ kept stream',
      (Contest.mk specimen g ⟨rule, plan.depth, place⟩ session).select plan.candidates stream =
        .ok kept stream' ∧
      Turn.Thrives ⟨tip, specimen, kept⟩ := by
  have hexpand : ∀ stream, Ends (g.expand ⟨rule, plan.depth, place⟩ ⟨specimen.scene, stream, []⟩)
      fun _ ground => Scene.Planted ground.scene ∧ Scene.Stays specimen.scene ground.scene :=
    fun stream => Grammar.expand_ends hg hplan.depth (.cons hrule hplace (.nil hs))
  have hgrow : ∀ index stream, ∃ kept,
      (Contest.mk specimen g ⟨rule, plan.depth, place⟩ session).candidate index stream =
        .ok kept := by
    intro index stream
    obtain ⟨report, ground, hok, -⟩ := hexpand stream
    exact ⟨_, by simp only [Contest.candidate, hok]; rfl⟩
  obtain ⟨kept, hselect⟩ := Contest.select_ok hplan.candidates hgrow stream
  obtain ⟨stream₁, ground, hkept, hscene⟩ := (Contest.select_eq_ok hselect).expanded
  obtain ⟨report, ground', hok, hplanted, hstays⟩ := hexpand stream₁
  rw [hok] at hkept
  cases hkept
  exact ⟨kept, _, hselect, hs, hscene ▸ hplanted, hscene ▸ hstays⟩

/-- A round can be carried out at tips where growth can go on. -/
theorem turns_end (hg : g.Tends) (hplan : plan.Feasible g) (hrule : g.contains rule)
    {tips : List (Option NodeId)} (hs : Scene.Planted specimen.scene)
    (htips : ∀ tip ∈ tips, plan.Places specimen.scene tip) (session : σ) (stream : Stream) :
    Ends (plan.turns g session rule tips specimen stream) fun ts _ =>
      (∀ t ∈ ts, t.Thrives) ∧ Scene.Planted (afterTurns specimen ts).scene := by
  induction tips generalizing specimen stream with
  | nil => exact ⟨[], stream, rfl, fun _ ht => (nomatch ht), hs⟩
  | cons tip tips ih =>
    obtain ⟨htip, htips⟩ := List.forall_mem_cons.mp htips
    obtain ⟨place, hplace, hnode⟩ := htip.place_ok hs
    obtain ⟨kept, stream₁, hselect, hturn⟩ :=
      select_thrives hg hplan hrule hs hnode tip session stream
    obtain ⟨later, stream₂, hlater, hthrive, hplanted⟩ :=
      ih hturn.kept (fun tip htip => (htips tip htip).later hturn.stays) stream₁
    exact ⟨_, stream₂, turns_cons hplace hselect hlater,
      List.forall_mem_cons.mpr ⟨hturn, hthrive⟩, hplanted⟩

theorem journalFrom_ends (hg : g.Tends) (hplan : plan.Feasible g) (remaining round : Nat)
    {tips : List (Option NodeId)} (hs : Scene.Planted specimen.scene)
    (htips : ∀ tip ∈ tips, plan.Places specimen.scene tip) (session : σ) (stream : Stream) :
    Ends (plan.journalFrom g session remaining round tips specimen stream) fun rs _ =>
      (∀ t ∈ rs.flatMap (·.turns), t.Thrives) ∧
        Scene.Planted (afterRounds specimen rs).scene := by
  induction remaining generalizing round tips specimen stream with
  | zero => exact ⟨[], stream, rfl, fun _ ht => (nomatch ht), hs⟩
  | succ remaining ih =>
    cases tips with
    | nil => exact ⟨[], stream, rfl, fun _ ht => (nomatch ht), hs⟩
    | cons tip tips =>
      obtain ⟨ts, stream₁, hturns, hthrive, hplanted⟩ :=
        turns_end hg hplan (hplan.rule round) hs htips session stream
      have hnext : ∀ tip ∈ (plan.nextTips ⟨round, ts, afterTurns specimen ts⟩).map some,
          plan.Places (afterTurns specimen ts).scene tip := by
        intro tip htip
        obtain ⟨id, hid, rfl⟩ := List.mem_map.mp htip
        exact places_of_mem_nextTips hid
      obtain ⟨later, stream₂, hlater, hthrive', hplanted'⟩ :=
        ih (round + 1) hplanted hnext stream₁
      refine ⟨_, stream₂, journalFrom_cons hturns hlater, ?_, hplanted'⟩
      rw [List.flatMap_cons]
      exact List.forall_mem_append.mpr ⟨hthrive, hthrive'⟩

/-- A feasible plan with a grammar that tends is carried out from any stream: every turn adds to a
planted scene, and the last scene is planted. -/
theorem journal_ends (hg : g.Tends) (hplan : plan.Feasible g) (session : σ) (stream : Stream) :
    Ends (plan.journal g session stream) fun rs _ =>
      (∀ t ∈ rs.flatMap (·.turns), t.Thrives) ∧
        Scene.Planted (afterRounds (.ofScene .empty) rs).scene := by
  refine journalFrom_ends hg hplan _ _ Scene.empty_planted (fun tip htip => ?_) session stream
  rw [List.mem_singleton.mp htip]
  trivial

/-! ## Runs that end well -/

/-- Where growth can go on is a place in the scene. -/
theorem place_eq_ok {place : Option (Point Float32)} (hs : Scene.Planted s)
    (h : plan.place s tip = .ok place) :
    s.contains (place.getD (.origin Scene.root)).node := by
  cases tip with
  | none =>
    cases h
    exact hs.forest.root_mem
  | some tip =>
    simp only [Plan.place, Scene.point] at h
    split at h
    next htip =>
      split at h
      · cases h
        exact htip
      · cases h
    · cases h

theorem turns_planted (hg : g.Tends) (hrule : g.contains rule) {tips : List (Option NodeId)}
    {session : σ} {ts : List Turn} {stream stream' : Stream}
    (hs : Scene.Planted specimen.scene)
    (h : plan.turns g session rule tips specimen stream = .ok ts stream') :
    Scene.Planted (afterTurns specimen ts).scene := by
  induction tips generalizing specimen ts stream with
  | nil =>
    cases h
    exact hs
  | cons tip tips ih =>
    obtain ⟨place, kept, stream₁, later, hplace, hselect, hlater, rfl⟩ := turns_cons_ok h
    obtain ⟨stream₂, ground, hexpand, hscene⟩ := (Contest.select_eq_ok hselect).expanded
    have hfirst : Ready g.contains specimen.scene
        [(Expansion.mk rule plan.depth place).first] :=
      .cons hrule (place_eq_ok hs hplace) (.nil hs)
    obtain ⟨hplanted, -⟩ := Grammar.expand_tended hg hfirst hexpand
    rw [← hscene] at hplanted
    rw [afterTurns]
    exact ih hplanted hlater

/-- A run that ends well with a grammar that tends leaves a planted scene, whatever its plan. -/
theorem journal_planted (hg : g.Tends) (hstart : g.contains plan.start)
    (hcontinue : g.contains plan.continueWith) {session : σ} {rs : List Round}
    {stream stream' : Stream} (h : plan.journal g session stream = .ok rs stream') :
    Scene.Planted (afterRounds (.ofScene .empty) rs).scene := by
  refine journalFrom_invariant (P := fun _ _ _ specimen rs => Scene.Planted specimen.scene →
    Scene.Planted (afterRounds specimen rs).scene) ?_ ?_ h Scene.empty_planted
  · intro _ _ _ _ _ hs
    exact hs
  · intro _ number _ specimen r later _ _ _ houtcome hturns ih hs
    have hround := turns_planted hg (contains_rule hstart hcontinue number) hs hturns
    rw [← houtcome] at hround
    exact ih hround

end Plan

end Espalier
