import Espalier.Proofs.Plant.Nesting
import Espalier.Proofs.Scene.Outline

/-!
# Geometry does not reach the topology of a plant

Lengths, angles, sizes and colors of a profile go into frames, positions and meshes. They take part
in no choice, in no check and in no draw, so two plants of the same habit, grown with the same
random words, differ in nothing but their geometry.

Two runs are compared step by step: on grounds that are alike both make the same choice, and their
shoots leave grounds that are alike again.

Results:
1. `Applies.alike`, `level_alike`, `levels_alike`: one application, one level, all levels.
2. `expand_topology`: two plants of the same habit have the same topology.
-/

namespace Espalier

/-! ## States that differ in their geometry -/

/-- The rule of a detail and the node that it is to run at. -/
def Detail.site (d : Detail) : String × NodeId := (d.rule, d.place.node)

/-- The grounds differ at most in the geometry of their scenes and in their notes. -/
structure Ground.Alike (ground ground' : Ground) : Prop where
  stream : ground.stream = ground'.stream
  scene : Scene.Alike ground.scene ground'.scene

/-- The workspaces are alike, and so are the details that are scheduled. -/
structure Workspace.Alike (w w' : Workspace) : Prop where
  ground : Ground.Alike w.toGround w'.toGround
  scheduled : w.scheduled.map Detail.site = w'.scheduled.map Detail.site

/-- The levels are alike but for where on their nodes details are to run. -/
structure Level.Alike (l l' : Level) : Prop where
  applied : l.applied = l'.applied
  skipped : l.skipped = l'.skipped
  pushed : l.pushed = l'.pushed
  scheduled : l.scheduled.map Detail.site = l'.scheduled.map Detail.site

namespace Shoot

variable {p q : Profile} {depth depth' : Nat} {place place' : Point Float32} {shoot : Shoot}
  {shoots : List Shoot} {w w' v v' : Workspace}

theorem Grows.alike (h : shoot.Grows p depth place w v) (h' : shoot.Grows q depth' place' w' v')
    (hplace : place.node = place'.node) (hw : Workspace.Alike w w') : Workspace.Alike v v' := by
  obtain ⟨⟨hstream, hscene⟩, hscheduled⟩ := hw
  cases h with
  | segment node =>
    cases h' with
    | segment node' =>
      have hnode : ∀ length length' rotation rotation',
          (Node.segment place length rotation).outline =
            (Node.segment place' length' rotation').outline := by
        simp [Node.segment, Node.outline, Node.isStructural, Node.isolated, hplace]
      refine ⟨⟨by rw [hstream], node.alike node' (hnode _ _ _ _) hscene⟩, ?_⟩
      simp only [List.map_append, List.map_reverse, List.map_map, Function.comp_def, Detail.site,
        hscene.size, ← hscheduled]
  | leaf node =>
    cases h' with
    | leaf node' =>
      have hnode : (Node.leaf place p.leafBlade).outline = (Node.leaf place' q.leafBlade).outline := by
        simp [Node.leaf, Node.outline, Node.isStructural, Node.isolated, hplace]
      exact ⟨⟨hstream, node.alike node' hnode hscene⟩, hscheduled⟩
  | bud =>
    cases h' with
    | bud =>
      refine ⟨⟨hstream, hscene⟩, ?_⟩
      rw [List.map_cons, List.map_cons, hscheduled, Detail.site, Detail.site, hplace]

theorem GrowAll.alike (h : GrowAll p depth place shoots w v)
    (h' : GrowAll q depth' place' shoots w' v') (hplace : place.node = place'.node)
    (hw : Workspace.Alike w w') : Workspace.Alike v v' := by
  induction h generalizing w' with
  | nil =>
    cases h'
    exact hw
  | cons hfirst _ ih =>
    cases h' with
    | cons hfirst' hrest' => exact ih hrest' (hfirst.alike hfirst' hplace hw)

end Shoot

namespace Profile

/-! ## Profiles of the same habit -/

/-- The profiles differ at most in the geometry of their plants. -/
structure SameHabit (p q : Profile) : Prop where
  continueWeight : p.continueWeight = q.continueWeight
  forkWeight : p.forkWeight = q.forkWeight
  budWeight : p.budWeight = q.budWeight
  branchProbability : p.branchProbability = q.branchProbability
  leafProbability : p.leafProbability = q.leafProbability

variable {p q : Profile} {g g' : Grammar} {depth : Nat} {d d' : Detail} {ds ds' : List Detail}
  {ground ground' ground₁ ground₁' : Ground}

theorem SameHabit.choose (h : SameHabit p q) (rule : String) (s : Stream) :
    p.choose rule s = q.choose rule s := by
  simp only [Profile.choose, h.continueWeight, h.forkWeight, h.budWeight, h.branchProbability,
    h.leafProbability]

/-- The same rule at the same node chooses the same shoots. -/
theorem Applies.alike {chosen chosen' : Option (List Detail)}
    (h : p.Applies depth d ground chosen ground₁) (h' : q.Applies depth d' ground' chosen' ground₁')
    (hpq : SameHabit p q) (hsite : d.site = d'.site) (hground : Ground.Alike ground ground') :
    Ground.Alike ground₁ ground₁' ∧ chosen.isSome = chosen'.isSome ∧
      (chosen.getD []).map Detail.site = (chosen'.getD []).map Detail.site := by
  obtain ⟨hrule, hnode⟩ := Prod.mk.inj hsite
  have hchoose : p.choose d.rule ground.stream = q.choose d'.rule ground'.stream := by
    rw [hpq.choose, hrule, hground.stream]
  cases h with
  | skipped chosen =>
    cases h' with
    | skipped chosen' =>
      rw [chosen, chosen'] at hchoose
      cases hchoose
      exact ⟨⟨rfl, hground.scene⟩, rfl, rfl⟩
    | grown chosen' _ =>
      rw [chosen, chosen'] at hchoose
      cases hchoose
  | grown chosen grows =>
    cases h' with
    | skipped chosen' =>
      rw [chosen, chosen'] at hchoose
      cases hchoose
    | grown chosen' grows' =>
      rw [chosen, chosen'] at hchoose
      cases hchoose
      have halike := grows.alike grows' hnode ⟨⟨rfl, hground.scene⟩, rfl⟩
      refine ⟨halike.ground, rfl, ?_⟩
      simp only [Option.getD_some, List.map_reverse, halike.scheduled]

/-! ## Levels -/

/-- The details of a level can be run on the scene. -/
def Runnable (s : Scene Float32) (ds : List Detail) : Prop :=
  ∀ d ∈ ds, d.rule ∈ ruleNames ∧ s.contains d.place.node

theorem Runnable.stays {s s' : Scene Float32} (h : Runnable s ds) (hs : Scene.Stays s s') :
    Runnable s' ds :=
  fun d hd => ⟨(h d hd).1, hs.contains (h d hd).2⟩

/-- A rule is applied at the same node of grounds that are alike. -/
theorem apply_alike (hp : p.grammar = .ok g) (hq : q.grammar = .ok g') (hpq : SameHabit p q)
    (hdepth : depth < deepest) (hf : Scene.Forest ground.scene)
    (hd : d.rule ∈ ruleNames ∧ ground.scene.contains d.place.node) (hsite : d.site = d'.site)
    (hground : Ground.Alike ground ground') :
    ∃ chosen ground₁ chosen' ground₁', g.apply ⟨d, depth⟩ ground = .ok chosen ground₁ ∧
      g'.apply ⟨d', depth⟩ ground' = .ok chosen' ground₁' ∧
      Scene.Stays ground.scene ground₁.scene ∧ Ground.Alike ground₁ ground₁' ∧
      chosen.isSome = chosen'.isSome ∧
      (chosen.getD []).map Detail.site = (chosen'.getD []).map Detail.site := by
  obtain ⟨hrule, hplace⟩ := hd
  obtain ⟨hrule', hnode⟩ := Prod.mk.inj hsite
  obtain ⟨chosen, ground₁, happly, happlies⟩ := apply_grows hp hrule hdepth hf hplace
  obtain ⟨chosen', ground₁', happly', happlies'⟩ :=
    apply_grows hq (hrule' ▸ hrule) hdepth (hground.scene.forest hf)
      (by rw [← hground.scene.contains, ← hnode]; exact hplace)
  exact ⟨chosen, ground₁, chosen', ground₁', happly, happly', happlies.stays,
    happlies.alike happlies' hpq hsite hground⟩

/-- Details that are alike make levels that are alike. -/
theorem level_alike (hp : p.grammar = .ok g) (hq : q.grammar = .ok g') (hpq : SameHabit p q)
    (hdepth : depth < deepest) (hf : Scene.Forest ground.scene)
    (hds : Runnable ground.scene ds) (hsites : ds.map Detail.site = ds'.map Detail.site)
    (hground : Ground.Alike ground ground') :
    ∃ l ground₁ l' ground₁', g.level depth ds ground = .ok l ground₁ ∧
      g'.level depth ds' ground' = .ok l' ground₁' ∧ Level.Alike l l' ∧
      Ground.Alike ground₁ ground₁' := by
  induction ds generalizing ds' ground ground' with
  | nil =>
    cases List.map_eq_nil_iff.mp hsites.symm
    exact ⟨_, ground, _, ground', rfl, rfl, ⟨rfl, rfl, rfl, rfl⟩, hground⟩
  | cons d ds ih =>
    cases ds' with
    | nil => cases hsites
    | cons d' ds' =>
      obtain ⟨hsite, hsites⟩ := List.cons.inj hsites
      obtain ⟨hd, hds⟩ := List.forall_mem_cons.mp hds
      obtain ⟨chosen, ground₁, chosen', ground₁', happly, happly', hstays, hground₁, hsome, hnew⟩ :=
        apply_alike hp hq hpq hdepth hf hd hsite hground
      obtain ⟨rest, ground₂, rest', ground₂', hrest, hrest', halike, hground₂⟩ :=
        ih (Scene.evolves_forest hstays.evolves hf) (Runnable.stays hds hstays) hsites hground₁
      have hl := Grammar.level_cons happly hrest
      have hl' := Grammar.level_cons happly' hrest'
      refine ⟨_, ground₂, _, ground₂', hl, hl', ⟨?_, ?_, ?_, ?_⟩, hground₂⟩
      · simp only [Level.append, Level.single, hsome, halike.applied]
      · simp only [Level.append, Level.single, hsome, halike.skipped]
      · rw [Grammar.level_pushed hl, Grammar.level_pushed hl', hground.scene.size,
          hground₂.scene.since]
      · rw [Level.scheduled_append, Level.scheduled_append, Grammar.scheduled_single happly,
          Grammar.scheduled_single happly', List.map_append, List.map_append, hnew,
          halike.scheduled]

/-- What waits after some levels of a plant can be run. -/
theorem levels_runnable (hp : p.grammar = .ok g) (hf : Scene.Forest ground.scene) {start : Detail}
    (hstart : Runnable ground.scene [start]) {count : Nat} (hcount : count ≤ deepest)
    {ls : List Level} (hls : g.levels start count ground = .ok ls ground₁) :
    Scene.Forest ground₁.scene ∧ Runnable ground₁.scene (waiting start ls) := by
  obtain ⟨hrule, hplace⟩ := hstart start List.mem_cons_self
  have hsited : Sited ground.scene start.place.node
      (ground.scene.ancestors start.place.node).length start :=
    ⟨hrule, _, Nat.le_refl _, ⟨hplace, List.mem_cons_self, rfl⟩, fun _ => rfl⟩
  obtain ⟨_, _, hls', hf', -, hwaiting, -⟩ := (sustains_nesting hp _ _).levels hf hsited hcount
  rw [hls] at hls'
  cases hls'
  refine ⟨hf', fun d hd => ⟨(hwaiting d hd).rule, ?_⟩⟩
  obtain ⟨n, -, hunder, -⟩ := (hwaiting d hd).under
  exact hunder.contains

/-- The report of one level more. -/
theorem report_alike {start : Detail} {ls ls' : List Level} {l l' : Level}
    (h : Report.ofLevels start ls = Report.ofLevels start ls') (hl : Level.Alike l l') :
    Report.ofLevels start (ls ++ [l]) = Report.ofLevels start (ls' ++ [l']) := by
  have hdropped : l.scheduled.length = l'.scheduled.length := by
    simpa using congrArg List.length hl.scheduled
  simp only [Report.ofLevels, Report.mk.injEq, Tally.mk.injEq] at h
  obtain ⟨⟨happlied, hskipped, -⟩, hcreated⟩ := h
  simp only [Report.ofLevels, Grammar.waiting_append, List.map_append, List.sum_append,
    List.map_singleton, List.flatMap_append, List.flatMap_singleton, happlied, hskipped, hcreated,
    hl.applied, hl.skipped, hl.pushed, hdropped]

/-- The topmost levels of two plants of the same habit: what they report is the same, and so is what
waits for the next level, but for its geometry. -/
theorem levels_alike (hp : p.grammar = .ok g) (hq : q.grammar = .ok g') (hpq : SameHabit p q)
    (hf : Scene.Forest ground.scene) {start : Detail} (hstart : Runnable ground.scene [start])
    (hground : Ground.Alike ground ground') {count : Nat} (hcount : count ≤ deepest) :
    ∃ ls ground₁ ls' ground₁', g.levels start count ground = .ok ls ground₁ ∧
      g'.levels start count ground' = .ok ls' ground₁' ∧
      Report.ofLevels start ls = Report.ofLevels start ls' ∧
      (waiting start ls).map Detail.site = (waiting start ls').map Detail.site ∧
      Ground.Alike ground₁ ground₁' := by
  induction count with
  | zero => exact ⟨[], ground, [], ground', rfl, rfl, rfl, rfl, hground⟩
  | succ count ih =>
    obtain ⟨ls, ground₁, ls', ground₁', hls, hls', hreport, hwaiting, hground₁⟩ :=
      ih (Nat.le_of_succ_le hcount)
    obtain ⟨hf₁, hrunnable⟩ := levels_runnable hp hf hstart (Nat.le_of_succ_le hcount) hls
    obtain ⟨l, ground₂, l', ground₂', hl, hl', halike, hground₂⟩ :=
      level_alike hp hq hpq hcount hf₁ hrunnable hwaiting hground₁
    refine ⟨ls ++ [l], ground₂, ls' ++ [l'], ground₂', Grammar.levels_succ hls hl,
      Grammar.levels_succ hls' hl', report_alike hreport halike, ?_, hground₂⟩
    rw [Grammar.waiting_append, Grammar.waiting_append]
    exact halike.scheduled

/-! ## Expansion -/

/-- Two plants that differ in their geometry only, grown alike, end with the same report and the
same stream, and with scenes that are alike: as many nodes, and every node with the same kind, the
same parent, the same children and points of the same names. -/
theorem expand_topology (hp : p.grammar = .ok g) (hq : q.grammar = .ok g') (hpq : SameHabit p q)
    (es : List (Edit Float32)) (x : Expansion) (hstart : x.start ∈ ruleNames)
    (hdepth : x.depth.toNat < deepest)
    (hplace : ((Scene.empty : Scene Float32).after es).contains x.first.place.node)
    (stream : Stream) (notes : List Note) :
    ∃ report ground ground',
      g.expand x ⟨Scene.empty.after es, stream, notes⟩ = .ok report ground ∧
      g'.expand x ⟨Scene.empty.after es, stream, notes⟩ = .ok report ground' ∧
      ground.stream = ground'.stream ∧ Scene.Alike ground.scene ground'.scene := by
  let ground : Ground := ⟨Scene.empty.after es, stream, notes⟩
  have hf : Scene.Forest ground.scene := Scene.after_forest es
  have hrunnable : Runnable ground.scene [x.first] := fun d hd => by
    rw [List.mem_singleton.mp hd]
    exact ⟨hstart, hplace⟩
  have hground : Ground.Alike ground ground := ⟨rfl, Scene.alike_refl _⟩
  obtain ⟨ls, ground₁, ls', ground₁', hls, hls', hreport, -, hstream, hscene⟩ :=
    levels_alike hp hq hpq hf hrunnable hground hdepth
  exact ⟨_, ground₁, ground₁', Grammar.expand_eq_ok.mpr ⟨ls, hls, rfl⟩,
    Grammar.expand_eq_ok.mpr ⟨ls', hls', hreport⟩, hstream, hscene⟩

/-- A sapling none of whose measures is a finite number. -/
def unmeasured : Profile :=
  { sapling with
    segmentLength := 0 / 0, lengthDecay := 1 / 0, spread := 1 / 0, leafSize := -1 / 0
    leafColor := ⟨0 / 0, 1 / 0, -1 / 0⟩ }

theorem expand_topology_unmeasured : sapling ≠ unmeasured ∧ SameHabit sapling unmeasured ∧
    ∃ g g' report ground ground', sapling.grammar = .ok g ∧ unmeasured.grammar = .ok g' ∧
      g.expand ⟨"trunk", 4, none⟩ ⟨.empty, .ofSeed 11, []⟩ = .ok report ground ∧
      g'.expand ⟨"trunk", 4, none⟩ ⟨.empty, .ofSeed 11, []⟩ = .ok report ground' ∧
      ground.stream = ground'.stream ∧ Scene.Alike ground.scene ground'.scene := by
  have hsame : SameHabit sapling unmeasured := ⟨rfl, rfl, rfl, rfl, rfl⟩
  obtain ⟨report, ground, ground', h⟩ := expand_topology (p := sapling) (q := unmeasured) rfl rfl
    hsame [] ⟨"trunk", 4, none⟩ (by decide) (by decide) rfl (.ofSeed 11) []
  exact ⟨by decide +kernel, hsame, _, _, report, ground, ground', rfl, rfl, h⟩

end Profile

end Espalier
