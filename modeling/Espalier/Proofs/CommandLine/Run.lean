import Espalier.Proofs.CommandLine.Flags
import Espalier.Proofs.Plant.Growth
import Espalier.Proofs.Search.Bookkeeping

/-!
# Runs of the program

A run is a configuration and what grows from it: the configuration that `--config` names, with the
numbers that other flags override, is validated once more, and its plant is grown and summed up. A
run depends on its arguments only through what its flags find in them.

Results:
1. `baseConfig_eq_ok`, `override_eq_ok`: which configuration a run grows.
2. `run_eq_ok`: when a run succeeds, and with which summary.
3. `Pipeline.balanced`: how the numbers of a summary go together.
4. `run_of_malformed`, `run_congr`: runs that fail by a flag, and runs that do not differ.
5. `run_pipeline`: all of this of the program.
-/

namespace Espalier

/-- The summary of a grown plant. -/
def Growth.summary (growth : Growth) (seed : UInt64) (bones : Bool) : Summary where
  seed := seed
  nodes := growth.specimen.scene.size
  cost := growth.specimen.cost
  rounds := growth.rounds
  bones := (growth.specimen.scene.drawing bones).bones.length
  meshes := (growth.specimen.scene.drawing bones).meshes.map fun m => ⟨m.node, m.world⟩

/-- The numbers of a summary agree: nodes come from the root and the rounds, the cost is that of the
last round, and every node but the root has a bone if bones were asked for. -/
structure Summary.Balanced (s : Summary) (bones : Bool) : Prop where
  nodes : s.nodes = 1 + (s.rounds.map (·.nodesCreated)).sum
  cost : s.cost = (s.rounds.getLast?.map (·.cost)).getD .zero
  bones : s.bones = if bones then s.nodes - 1 else 0

namespace CommandLine

variable {args args' : List String} {read : String → Except String String} {base c : Config}

/-! ## The configuration -/

/-- The configuration comes from the file that `--config` names, or is the default one. -/
def Loads (args : List String) (read : String → Except String String) (base : Config) : Prop :=
  "--config" ∉ args ∧ base = .default ∨
    ∃ path text, ValueOf args "--config" path ∧ read path = .ok text ∧ Config.ofText text = .ok base

/-- The configuration with each number replaced that a flag gives. -/
structure Overrides (args : List String) (base c : Config) : Prop where
  seed : CountFlag.seed.Replaces args base.seed.toNat c.seed.toNat
  depth : CountFlag.depth.Replaces args base.depth.toNat c.depth.toNat
  rounds : CountFlag.rounds.Replaces args base.rounds.toNat c.rounds.toNat
  candidates : CountFlag.candidates.Replaces args base.candidates c.candidates
  maxTips : c.maxTips = base.maxTips
  plant : c.plant = base.plant
  guides : c.guides = base.guides

theorem baseConfig_eq_ok : baseConfig args read = .ok base ↔ Loads args read base := by
  unfold baseConfig
  rw [bind_eq_ok]
  constructor
  · rintro ⟨value, hvalue, h⟩
    cases value with
    | none =>
      cases h
      exact .inl ⟨value?_eq_none.mp hvalue, rfl⟩
    | some path =>
      dsimp only at h
      split at h
      next text htext => exact .inr ⟨path, text, value?_eq_some.mp hvalue, htext, h⟩
      · cases h
  · rintro (⟨habsent, rfl⟩ | ⟨path, text, hvalue, htext, h⟩)
    · exact ⟨none, value?_eq_none.mpr habsent, rfl⟩
    · exact ⟨some path, value?_eq_some.mpr hvalue, by simp only [htext]; exact h⟩

theorem override_eq_ok : override args base = .ok c ↔ Overrides args base c := by
  have hseed := @CountFlag.replaces_iff args _ _ Nat.toUInt64 .seed
    (fun _ _ => UInt64.toNat_inj.mp) (fun _ => UInt64.toNat_ofNat_of_lt')
  have hdepth := @CountFlag.replaces_iff args _ _ Nat.toUInt32 .depth
    (fun _ _ => UInt32.toNat_inj.mp) (fun _ => UInt32.toNat_ofNat_of_lt')
  have hrounds := @CountFlag.replaces_iff args _ _ Nat.toUInt32 .rounds
    (fun _ _ => UInt32.toNat_inj.mp) (fun _ => UInt32.toNat_ofNat_of_lt')
  have hcandidates := @CountFlag.replaces_iff args _ _ id .candidates
    Function.injective_id (fun _ _ => rfl)
  unfold override
  simp only [bind_eq_ok]
  constructor
  · rintro ⟨seed, hs, depth, hd, candidates, hc, rounds, hr, h⟩
    cases h
    exact
      { seed := hseed.mpr ⟨seed, hs, rfl⟩
        depth := hdepth.mpr ⟨depth, hd, rfl⟩
        rounds := hrounds.mpr ⟨rounds, hr, rfl⟩
        candidates := hcandidates.mpr ⟨candidates, hc, by rw [Option.map_id]; rfl⟩
        maxTips := rfl
        plant := rfl
        guides := rfl }
  · intro h
    obtain ⟨seed, hs, hseed⟩ := hseed.mp h.seed
    obtain ⟨depth, hd, hdepth⟩ := hdepth.mp h.depth
    obtain ⟨rounds, hr, hrounds⟩ := hrounds.mp h.rounds
    obtain ⟨candidates, hc, hcandidates⟩ := hcandidates.mp h.candidates
    rw [Option.map_id, id_eq] at hcandidates
    refine ⟨seed, hs, depth, hd, candidates, hc, rounds, hr, congrArg Except.ok ?_⟩
    rw [← hseed, ← hdepth, ← hrounds, ← hcandidates, ← h.maxTips, ← h.plant, ← h.guides]

theorem validate_configOnly (c : Config) : ConfigOnly c.validate := by
  unfold Config.validate
  split
  · exact configOnly_ok _
  · exact configOnly_error _

theorem ofText_configOnly (text : String) : ConfigOnly (Config.ofText text) := by
  unfold Config.ofText
  split
  · exact configOnly_error _
  next c _ =>
    split
    · exact configOnly_ok _
    next e he =>
      obtain ⟨cause, rfl⟩ := validate_configOnly c e he
      exact configOnly_error cause

theorem baseConfig_configOnly (args : List String) (read : String → Except String String) :
    ConfigOnly (baseConfig args read) := by
  refine (value?_configOnly args _).bind fun value => ?_
  cases value with
  | none => exact configOnly_ok _
  | some path =>
    dsimp only
    split
    · exact ofText_configOnly _
    · exact configOnly_error _

theorem override_configOnly (args : List String) (base : Config) :
    ConfigOnly (override args base) :=
  (number?_configOnly args _ _).bind fun _ => (number?_configOnly args _ _).bind fun _ =>
    (number?_configOnly args _ _).bind fun _ => (number?_configOnly args _ _).bind fun _ =>
      configOnly_ok _

/-! ## Runs -/

theorem mapError_eq_ok {ε ε' β : Type} {x : Except ε β} {f : ε → ε'} {value : β} :
    x.mapError f = .ok value ↔ x = .ok value := by
  cases x <;> simp [Except.mapError]

theorem summarize_eq_ok {bones : Bool} {summary : Summary} :
    summarize c bones = .ok summary ↔ ∃ g growth stream, c.plant.grammar = .ok g ∧
      c.plan.grow g (GuidedSession.ofGuides c.guides) (.ofSeed c.seed) = .ok growth stream ∧
      summary = growth.summary c.seed bones := by
  unfold summarize
  rw [bind_eq_ok]
  constructor
  · rintro ⟨g, hgrammar, h⟩
    split at h
    · cases h
    next growth stream hgrow =>
      cases h
      exact ⟨g, growth, stream, mapError_eq_ok.mp hgrammar, hgrow, rfl⟩
  · rintro ⟨g, growth, stream, hgrammar, hgrow, rfl⟩
    refine ⟨g, mapError_eq_ok.mpr hgrammar, ?_⟩
    rw [Config.grow, hgrow]
    rfl

/-- The run grows the plant of the configuration by the grammar of its profile. -/
structure Pipeline (args : List String) (read : String → Except String String) (base c : Config)
    (g : Grammar) (growth : Growth) (summary : Summary) : Prop where
  loaded : Loads args read base
  overridden : Overrides args base c
  accepted : c.validate = .ok ()
  grammar : c.plant.grammar = .ok g
  grown : ∃ stream,
    c.plan.grow g (GuidedSession.ofGuides c.guides) (.ofSeed c.seed) = .ok growth stream
  told : summary = growth.summary c.seed (args.contains "--bones")

theorem run_eq_ok {summary : Summary} :
    run args read = .ok summary ↔
      ∃ base c g growth, Pipeline args read base c g growth summary := by
  unfold run
  simp only [bind_eq_ok, mapError_eq_ok, baseConfig_eq_ok, override_eq_ok, summarize_eq_ok]
  constructor
  · rintro ⟨base, hbase, c, hover, _, hvalid, g, growth, stream, hgrammar, hgrow, htold⟩
    exact ⟨base, c, g, growth, hbase, hover, hvalid, hgrammar, ⟨stream, hgrow⟩, htold⟩
  · rintro ⟨base, c, g, growth, hbase, hover, hvalid, hgrammar, ⟨stream, hgrow⟩, htold⟩
    exact ⟨base, hbase, c, hover, (), hvalid, g, growth, stream, hgrammar, hgrow, htold⟩

/-- A run that succeeds has a journal, and its books go together. -/
theorem Pipeline.balanced {g : Grammar} {growth : Growth} {summary : Summary}
    (h : Pipeline args read base c g growth summary) :
    summary.Balanced (args.contains "--bones") := by
  obtain ⟨stream, hgrown⟩ := h.grown
  obtain ⟨rs, hjournal, rfl⟩ := Plan.journal_of_grow hgrown
  -- Nothing bounds the depth, so the plan need not be feasible; but the run has ended well.
  have hplanted : Scene.Planted (afterRounds (.ofScene .empty) rs).scene :=
    Plan.journal_planted (Profile.grammar_tends h.grammar)
      (Profile.grammar_contains h.grammar List.mem_cons_self)
      (Profile.grammar_contains h.grammar (List.mem_cons_of_mem _ List.mem_cons_self)) hjournal
  rw [h.told]
  refine ⟨?_, Plan.afterRounds_cost _ rs, ?_⟩
  · show _ = 1 + ((rs.map Round.account).map (·.nodesCreated)).sum
    rw [List.map_map]
    exact (Plan.journal_counted hjournal).symm
  · show ((afterRounds (.ofScene .empty) rs).scene.drawing _).bones.length = _
    cases args.contains "--bones" with
    | false => rfl
    | true => exact hplanted.fullyDrawn.bones

/-- A run fails with the error of its configuration. -/
theorem run_of_error {e : GrowthError} (h : (baseConfig args read >>= override args) = .error e) :
    run args read = .error (.error e) := by
  unfold run
  cases hbase : baseConfig args read with
  | error e' =>
    rw [hbase] at h
    cases h
    rfl
  | ok base =>
    rw [hbase] at h
    show ((override args base).mapError Failure.error >>= _) = _
    rw [show override args base = .error e from h]
    rfl

/-- A flag without a number that can be read makes the run fail, whatever else is asked for. -/
theorem run_of_malformed {f : CountFlag} (h : f.Malformed args) :
    ∃ cause, run args read = .error (.error (.config cause)) := by
  cases hconfig : baseConfig args read >>= override args with
  | error e =>
    obtain ⟨cause, rfl⟩ :=
      (baseConfig_configOnly args read).bind (override_configOnly args) e hconfig
    exact ⟨cause, run_of_error hconfig⟩
  | ok c =>
    obtain ⟨base, -, hover⟩ := bind_eq_ok.mp hconfig
    have hreplaces := override_eq_ok.mp hover
    cases f with
    | seed => exact absurd hreplaces.seed h.not_replaces
    | depth => exact absurd hreplaces.depth h.not_replaces
    | candidates => exact absurd hreplaces.candidates h.not_replaces
    | rounds => exact absurd hreplaces.rounds h.not_replaces

/-- A run does not depend on its arguments beyond what the flags find in them. -/
theorem run_congr (hvalue : ∀ flag : ValueFlag, value? args flag.name = value? args' flag.name)
    (hbones : args.contains "--bones" = args'.contains "--bones") :
    run args read = run args' read := by
  have hbase : baseConfig args read = baseConfig args' read := by
    unfold baseConfig
    rw [show value? args "--config" = value? args' "--config" from hvalue .config]
  have hnumber : ∀ (f : CountFlag) (bound : Nat),
      number? args f.name bound = number? args' f.name bound := by
    intro f bound
    unfold number?
    rw [show value? args f.name = value? args' f.name from hvalue (.count f)]
  have hover : override args = override args' := by
    funext base
    unfold override
    rw [show number? args "--seed" UInt64.size = _ from hnumber .seed _,
      show number? args "--depth" UInt32.size = _ from hnumber .depth _,
      show number? args "--candidates" UInt64.size = _ from hnumber .candidates _,
      show number? args "--rounds" UInt32.size = _ from hnumber .rounds _]
    rfl
  unfold run
  rw [hbase, hover, hbones]

/-- The order of the settings does not matter to a run. -/
theorem run_perm {before : List String} {settings settings' : List Setting}
    (hbefore : ∀ arg ∈ before, arg ∉ flagNames) (h : Orderly settings)
    (hperm : settings.Perm settings') (read : String → Except String String) :
    run (before ++ settings.flatMap Setting.args) read =
      run (before ++ settings'.flatMap Setting.args) read := by
  refine run_congr (fun flag => ?_) ?_
  · have habsent : flag.name ∉ before := fun hmem => hbefore _ hmem flag.name_mem
    rw [value?_append habsent, value?_append habsent, value?_perm h hperm]
  · have hargs := (hperm.flatMap_right Setting.args).append_left before
    rw [Bool.eq_iff_iff, List.contains_iff_mem, List.contains_iff_mem, hargs.mem_iff]

/-- A run succeeds if the configuration of its arguments is accepted and grows, and answers the
summary of what has grown, whose numbers go together. A number flag without a number makes it fail,
and settings may be given in any order, behind arguments that are no flags. -/
theorem run_pipeline (read : String → Except String String) :
    (∀ args summary, run args read = .ok summary ↔
      ∃ base c g growth, Pipeline args read base c g growth summary) ∧
    (∀ args summary, run args read = .ok summary →
      summary.Balanced (args.contains "--bones")) ∧
    (∀ args (f : CountFlag), f.Malformed args →
      ∃ cause, run args read = .error (.error (.config cause))) ∧
    ∀ before settings settings', (∀ arg ∈ before, arg ∉ flagNames) → Orderly settings →
      settings.Perm settings' →
      run (before ++ settings.flatMap Setting.args) read =
        run (before ++ settings'.flatMap Setting.args) read := by
  refine ⟨fun _ _ => run_eq_ok, fun args summary h => ?_, fun _ _ => run_of_malformed,
    fun _ _ _ hbefore hsettings hperm => run_perm hbefore hsettings hperm read⟩
  obtain ⟨base, c, g, growth, hpipeline⟩ := run_eq_ok.mp h
  exact hpipeline.balanced

example : ((run ["--bones", "--rounds", "0"] fun path => .error path).map fun s =>
    (s.seed, s.nodes, s.bones)) = .ok (42, 1, 0) := by rfl

end CommandLine

end Espalier
