import Espalier.Proofs.Cost.Ledger
import Espalier.Proofs.Plant.Growth

/-!
# What a grown plant was charged

Every turn of a run charges the nodes that it added, in the scene that it leaves, with a session of
its own. Turn by turn the accounts add up: the nodes that two turns add are different nodes, and no
later turn moves a node or its ancestors, so a charge is still right when the plant is grown.

Results:
1. `threaded_stays`: the scene of every turn stays as it was in all that follow.
2. `threaded_accounts`, `threaded_cost`: the accounts of some turns name what the turns have added,
   and their sums make up the cost.
3. `grow_scoredOnce`: an accepted configuration charges every structural node once.
-/

namespace Espalier

/-- The account of the scoring of the candidate that a turn has kept, by a fresh session. -/
def Turn.account (guides : List Guide) (t : Turn) : List Entry :=
  (GuidedSession.ofGuides guides).account t.kept.specimen.scene t.created

/-- A turn has scored what it added. -/
structure Turn.Scored (guides : List Guide) (t : Turn) : Prop where
  created : t.created = t.kept.specimen.scene.since t.base.scene.size
  cost : t.kept.specimen.cost =
    ((GuidedSession.ofGuides guides).score ⟨t.kept.specimen.scene, t.base.cost⟩ t.created).1

theorem Turn.scored_of_grows {guides : List Guide} {t : Turn} {grammar : Grammar} {x : Expansion}
    (h : Contest.Grows ⟨t.base, grammar, x, GuidedSession.ofGuides guides⟩ t.kept) :
    t.Scored guides :=
  ⟨h.scene.2, h.charged⟩

theorem Turn.Scored.cost_eq {guides : List Guide} {t : Turn} (h : t.Scored guides) :
    t.kept.specimen.cost =
      ⟨t.base.cost.real + (t.account guides).foldl Entry.addTo 0, 0⟩ := by
  rw [h.cost, GuidedSession.score_eq_account]
  rfl

/-- What a turn was charged for a node is still right where its scene has stayed. -/
theorem Turn.Thrives.charge_eq {guides : List Guide} {t : Turn} (ht : t.Thrives)
    {s : Scene Float32} (hs : Scene.Stays t.kept.specimen.scene s) {e : Entry}
    (he : e ∈ t.account guides) :
    e.charge = ((GuidedSession.ofGuides guides).charge? s e.node).1 := by
  rw [Turn.account, GuidedSession.account_eq_map guides ht.kept.forest] at he
  obtain ⟨id, hid, rfl⟩ := List.mem_map.mp he
  obtain ⟨hstructural, -⟩ := GuidedSession.scored_new _ _ _ _ id hid
  rw [Scene.isStructural, Bool.and_eq_true] at hstructural
  rw [GuidedSession.charge?_of_coherent (GuidedSession.ofGuides_coherent guides s)]
  exact (Guide.charge?_of_stays guides hs ht.kept.forest hstructural.1).symm

/-! ## Threads of turns -/

section Threads

variable {guides : List Guide} {specimen : Specimen} {ts : List Turn}

theorem threaded_stays (h : Threaded specimen ts) (hthrive : ∀ t ∈ ts, t.Thrives) :
    Scene.Stays specimen.scene (afterTurns specimen ts).scene ∧
      ∀ t ∈ ts, Scene.Stays t.kept.specimen.scene (afterTurns specimen ts).scene := by
  induction ts generalizing specimen with
  | nil => exact ⟨Scene.stays_refl _, fun _ ht => (nomatch ht)⟩
  | cons t ts ih =>
    obtain ⟨rfl, hthreaded⟩ := h
    obtain ⟨ht, hthrive⟩ := List.forall_mem_cons.mp hthrive
    obtain ⟨hstays, hlater⟩ := ih hthreaded hthrive
    exact ⟨Scene.stays_trans ht.stays hstays, List.forall_mem_cons.mpr ⟨hstays, hlater⟩⟩

/-- The accounts of a thread of turns name the structural nodes that the turns have added. -/
theorem threaded_accounts (h : Threaded specimen ts) (hthrive : ∀ t ∈ ts, t.Thrives)
    (hscored : ∀ t ∈ ts, t.Scored guides) :
    ((ts.flatMap (Turn.account guides)).map (·.node)).Perm
      (((afterTurns specimen ts).scene.since specimen.scene.size).filter
        (afterTurns specimen ts).scene.isStructural) := by
  induction ts generalizing specimen with
  | nil => simp [afterTurns, Scene.since_self]
  | cons t ts ih =>
    obtain ⟨rfl, hthreaded⟩ := h
    obtain ⟨ht, hthrive⟩ := List.forall_mem_cons.mp hthrive
    obtain ⟨hturn, hscored⟩ := List.forall_mem_cons.mp hscored
    obtain ⟨hstays, -⟩ := threaded_stays hthreaded hthrive
    have hfirst : ((t.account guides).map (·.node)).Perm
        ((t.kept.specimen.scene.since t.base.scene.size).filter
          t.kept.specimen.scene.isStructural) := by
      rw [Turn.account, hturn.created]
      exact GuidedSession.account_nodes guides ht.kept
        (Scene.contains_iff.mp ht.base.forest.root_mem)
    have hkinds : ∀ id ∈ t.kept.specimen.scene.since t.base.scene.size,
        t.kept.specimen.scene.isStructural id =
          (afterTurns t.kept.specimen ts).scene.isStructural id := by
      intro id hid
      rw [hstays.isStructural (Scene.contains_iff.mpr (Scene.mem_since.mp hid).2)]
    rw [List.filter_congr hkinds] at hfirst
    rw [List.flatMap_cons, List.map_append, afterTurns,
      ← Scene.since_append_of_evolves ht.stays.evolves hstays.evolves, List.filter_append]
    exact hfirst.append (ih hthreaded hthrive hscored)

/-- The cost after a thread of turns is made up of their accounts. -/
theorem threaded_cost (h : Threaded specimen ts) (hscored : ∀ t ∈ ts, t.Scored guides)
    (hstart : specimen.cost.heuristic = 0) :
    (afterTurns specimen ts).cost =
      ⟨ts.foldl (fun real t => real + (t.account guides).foldl Entry.addTo 0)
        specimen.cost.real, 0⟩ := by
  induction ts generalizing specimen with
  | nil => rw [← hstart]; rfl
  | cons t ts ih =>
    obtain ⟨rfl, hthreaded⟩ := h
    obtain ⟨hturn, hscored⟩ := List.forall_mem_cons.mp hscored
    rw [afterTurns, ih hthreaded hscored (by rw [hturn.cost_eq]), List.foldl_cons, hturn.cost_eq]

end Threads

/-- Every structural node of a grown scene but the root was charged once, as it would be charged by
a new session on the grown scene, and the charges make up the cost. -/
structure ScoredOnce (guides : List Guide) (growth : Growth) (ts : List Turn) : Prop where
  /-- The candidates that were kept were charged what their accounts say. -/
  turns : ∀ t ∈ ts, t.kept.specimen.cost =
      ((GuidedSession.ofGuides guides).score ⟨t.kept.specimen.scene, t.base.cost⟩ t.created).1 ∧
    t.kept.specimen.cost = ⟨t.base.cost.real + (t.account guides).foldl Entry.addTo 0, 0⟩
  nodes : ((ts.flatMap (Turn.account guides)).map (·.node)).Perm
    ((List.range' 1 (growth.specimen.scene.size - 1)).filter growth.specimen.scene.isStructural)
  charges : ∀ e ∈ ts.flatMap (Turn.account guides),
    e.charge = ((GuidedSession.ofGuides guides).charge? growth.specimen.scene e.node).1
  cost : growth.specimen.cost =
    ⟨ts.foldl (fun real t => real + (t.account guides).foldl Entry.addTo 0) 0, 0⟩

namespace Config

/-- An accepted configuration grows from any stream, and the candidates that its turns keep charge
every structural node of the grown scene once, at its final charge. -/
theorem grow_scoredOnce {c : Config} {g : Grammar} (hvalid : c.validate = .ok ())
    (hgrammar : c.plant.grammar = .ok g) (hdepth : c.depth.toNat < deepest) (stream : Stream) :
    ∃ growth stream' rs, c.grow g c.plan stream = .ok growth stream' ∧
      c.plan.journal g (GuidedSession.ofGuides c.guides) stream = .ok rs stream' ∧
      growth = Growth.ofRounds (.ofScene .empty) rs ∧
      ScoredOnce c.guides growth (rs.flatMap (·.turns)) := by
  obtain ⟨rs, stream', hjournal, hthrive, -⟩ :=
    Plan.journal_ends (Profile.grammar_tends hgrammar) (plan_feasible hvalid hgrammar hdepth)
      (GuidedSession.ofGuides c.guides) stream
  obtain ⟨hthreaded, hafter⟩ := Plan.journalFrom_threaded hjournal
  have hscored : ∀ t ∈ rs.flatMap (·.turns), t.Scored c.guides := by
    intro t ht
    obtain ⟨rule, place, hgrows⟩ := Plan.journalFrom_grows hjournal t ht
    exact Turn.scored_of_grows hgrows
  obtain ⟨-, hstays⟩ := threaded_stays hthreaded hthrive
  have hnodes := threaded_accounts hthreaded hthrive hscored
  have hcost := threaded_cost hthreaded hscored rfl
  rw [hafter] at hstays hnodes hcost
  refine ⟨_, stream', rs, Plan.grow_of_journal hjournal, hjournal, rfl, ?_⟩
  exact
    { turns := fun t ht => ⟨(hscored t ht).cost, (hscored t ht).cost_eq⟩
      nodes := hnodes
      charges := fun e he => by
        obtain ⟨t, ht, he⟩ := List.mem_flatMap.mp he
        exact (hthrive t ht).charge_eq (hstays t ht) he
      cost := hcost }

theorem grow_scoredOnce_default : ∃ g growth stream', ∃ rs : List Round,
    default.plant.grammar = .ok g ∧
    default.grow g default.plan (.ofSeed 42) = .ok growth stream' ∧
    default.plan.journal g (GuidedSession.ofGuides default.guides) (.ofSeed 42) =
      .ok rs stream' ∧
    ScoredOnce default.guides growth (rs.flatMap (·.turns)) := by
  obtain ⟨growth, stream', rs, hgrow, hjournal, -, hscored⟩ :=
    grow_scoredOnce (c := default) rfl rfl (by decide) (.ofSeed 42)
  exact ⟨_, growth, stream', rs, rfl, hgrow, hjournal, hscored⟩

end Config

end Espalier
