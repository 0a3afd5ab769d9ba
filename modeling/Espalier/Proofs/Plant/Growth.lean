import Espalier.CommandLine
import Espalier.Proofs.Plant.Bodies
import Espalier.Proofs.Search.Progress

/-!
# Accepted configurations grow

What `validate` and the grammar of the profile check is all that can go wrong: the plan of an
accepted configuration names rules of the plant grammar, and these tend their scene. Nothing is
asked of the numbers of the profile or of the shapes of the guides.

Results:
1. `plan_feasible`: the plan of an accepted configuration can be carried out.
2. `grow_accepted`: an accepted configuration grows a plant that hangs from the root as a whole.
-/

namespace Espalier.Config

variable {c : Config} {g : Grammar}

theorem candidates_ne_zero (hvalid : c.validate = .ok ()) : c.candidates ≠ 0 := by
  intro hzero
  simp [validate, cause?, hzero] at hvalid

theorem plan_feasible (hvalid : c.validate = .ok ()) (hgrammar : c.plant.grammar = .ok g)
    (hdepth : c.depth.toNat < deepest) : c.plan.Feasible g where
  start := Profile.grammar_contains hgrammar List.mem_cons_self
  continueWith := Profile.grammar_contains hgrammar (List.mem_cons_of_mem _ List.mem_cons_self)
  depth := hdepth
  candidates := candidates_ne_zero hvalid

/-- An accepted configuration grows from any stream, whatever numbers its profile and its guides
have. In the grown scene every node is the root or below it, and so has its part in the drawing. -/
theorem grow_accepted (hvalid : c.validate = .ok ()) (hgrammar : c.plant.grammar = .ok g)
    (hdepth : c.depth.toNat < deepest) (stream : Stream) :
    ∃ growth stream', c.grow g c.plan stream = .ok growth stream' ∧
      (∀ id, growth.specimen.scene.contains id → id ≠ Scene.root →
        Scene.root ∈ growth.specimen.scene.ancestors id) ∧
      Scene.FullyDrawn growth.specimen.scene := by
  obtain ⟨rs, stream', hjournal, -, hplanted⟩ :=
    Plan.journal_ends (Profile.grammar_tends hgrammar) (plan_feasible hvalid hgrammar hdepth)
      (GuidedSession.ofGuides c.guides) stream
  exact ⟨_, stream', Plan.grow_of_journal hjournal, fun _ => hplanted.root_above,
    hplanted.fullyDrawn⟩

/-- The default configuration for a plant with segments that are not of any length, tilted by no
angle in particular. -/
def boundless : Config :=
  { default with plant := { Profile.sapling with segmentLength := 0 / 0, spread := 1 / 0 } }

theorem grow_accepted_boundless : boundless.plant.segmentLength.isNaN ∧
    ∃ g growth stream', boundless.plant.grammar = .ok g ∧
      boundless.grow g boundless.plan (.ofSeed 42) = .ok growth stream' ∧
      Scene.FullyDrawn growth.specimen.scene := by
  obtain ⟨growth, stream', hgrow, -, hdrawn⟩ :=
    grow_accepted (c := boundless) rfl rfl (by decide) (.ofSeed 42)
  exact ⟨rfl, _, growth, stream', rfl, hgrow, hdrawn⟩

end Espalier.Config
