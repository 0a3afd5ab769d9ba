import Espalier.Proofs.Plant.Bodies
import Mathlib.Data.Option.Basic

/-!
# One application of a plant rule

Which shoots a rule of the plant grammar grows is decided by a draw. `choose` is that decision: it
reads the weights and the probabilities of the profile, and nothing else of it.

Results:
1. `grammar_eq`: the rules of an accepted plant grammar.
2. `apply_grows`: an application of a rule grows the chosen shoots, and does not fail.
-/

namespace Espalier.Profile

/-- The rules of the plant grammar. -/
def ruleNames : List String := ["trunk", "branch", "maybeBranch", "leaf"]

/-- The shoots of a branch: it goes on, forks, or ends. -/
def branchShoots : List (List Shoot) :=
  [[.segment ["branch", "maybeBranch", "leaf"]],
    [.segment ["branch", "leaf"], .segment ["branch", "leaf"]],
    [.bud]]

/-- The shoots that an application of a rule grows, if any, and the stream behind the choice. -/
def choose (p : Profile) (rule : String) (s : Stream) : Option (List Shoot) × Stream :=
  match rule with
  | "trunk" => (some [.segment ["branch", "maybeBranch"]], s)
  | "branch" =>
    match s.pick [p.continueWeight, p.forkWeight, p.budWeight] with
    | (some i, s) => (branchShoots[i]?, s)
    | (none, s) => (none, s)
  | "maybeBranch" =>
    (if s.chance p.branchProbability then some [.segment ["branch"]] else none, s.advance)
  | "leaf" => (if s.chance p.leafProbability then some [.leaf] else none, s.advance)
  | _ => (none, s)

variable {p : Profile} {g : Grammar}

/-- What is grown schedules rules of the plant grammar, and the leaf rule grows nothing but a
leaf. -/
theorem choose_shoots {rule : String} {s s' : Stream} {shoots : List Shoot}
    (h : p.choose rule s = (some shoots, s')) :
    (∀ shoot ∈ shoots, shoot.rules ⊆ ruleNames) ∧ (rule = "leaf" → shoots = [.leaf]) := by
  have hbranch : ∀ shoots ∈ branchShoots, ∀ shoot ∈ shoots, shoot.rules ⊆ ruleNames := by decide
  unfold choose at h
  split at h
  · cases h
    exact ⟨by decide, nofun⟩
  · split at h
    · obtain ⟨hget, -⟩ := Prod.mk.inj h
      exact ⟨hbranch _ (List.mem_of_getElem? hget), nofun⟩
    · cases h
  · obtain ⟨hchosen, -⟩ := Prod.mk.inj h
    split at hchosen
    · cases hchosen
      exact ⟨by decide, nofun⟩
    · cases hchosen
  · obtain ⟨hchosen, -⟩ := Prod.mk.inj h
    split at hchosen
    · cases hchosen
      exact ⟨by decide, fun _ => rfl⟩
    · cases hchosen
  · cases h

/-- The rules of a plant whose grammar is accepted. -/
theorem grammar_eq (h : p.grammar = .ok g) :
    g = ⟨[("trunk", .plain p.trunk),
      ("branch", .weighted [⟨p.continueWeight, p.extend⟩, ⟨p.forkWeight, p.fork⟩,
        ⟨p.budWeight, bud⟩]),
      ("maybeBranch", .maybe p.branchProbability p.sideBranch),
      ("leaf", .maybe p.leafProbability p.leaf)]⟩ :=
  Grammar.ofDefinitions_eq h

/-- The rules of an accepted plant grammar choose among bodies that grow the chosen shoots. -/
theorem select_grows (h : p.grammar = .ok g) {rule : String} (hrule : rule ∈ ruleNames)
    (s : Stream) : ∃ r, g.rule? rule = some r ∧ (r.select s).2 = (p.choose rule s).2 ∧
      Option.Rel (Body.Grows g.contains p) (r.select s).1 (p.choose rule s).1 := by
  have hknown := grammar_knows h
  have heq := grammar_eq h
  simp only [ruleNames, List.mem_cons, List.not_mem_nil, or_false] at hrule
  rcases hrule with rfl | rfl | rfl | rfl
  · exact ⟨.plain p.trunk, by rw [heq]; rfl, rfl, .some (trunk_grows p hknown)⟩
  · refine ⟨.weighted [⟨p.continueWeight, p.extend⟩, ⟨p.forkWeight, p.fork⟩, ⟨p.budWeight, bud⟩],
      by rw [heq]; rfl, ?_⟩
    simp only [Rule.select, choose, List.map_cons, List.map_nil]
    rcases s.pick [p.continueWeight, p.forkWeight, p.budWeight] with ⟨_ | i, s'⟩
    · exact ⟨rfl, .none⟩
    · refine ⟨rfl, ?_⟩
      rcases i with _ | _ | _ | _
      · exact .some (extend_grows p hknown)
      · exact .some (fork_grows p hknown)
      · exact .some (bud_grows p hknown)
      · exact .none
  · refine ⟨.maybe p.branchProbability p.sideBranch, by rw [heq]; rfl, rfl, ?_⟩
    simp only [Rule.select, choose]
    split
    · exact .some (sideBranch_grows p hknown)
    · exact .none
  · refine ⟨.maybe p.leafProbability p.leaf, by rw [heq]; rfl, rfl, ?_⟩
    simp only [Rule.select, choose]
    split
    · exact .some (leaf_grows p)
    · exact .none

/-- What an application of a rule at a place and a depth does to the ground: it grows the chosen
shoots there, if any, and answers what they schedule. -/
inductive Applies (p : Profile) (depth : Nat) (d : Detail) (ground : Ground) :
    Option (List Detail) → Ground → Prop
  | skipped {s : Stream} (chosen : p.choose d.rule ground.stream = (none, s)) :
      Applies p depth d ground none { ground with stream := s }
  | grown {shoots : List Shoot} {s : Stream} {w : Workspace}
      (chosen : p.choose d.rule ground.stream = (some shoots, s))
      (grows : Shoot.GrowAll p depth d.place shoots ⟨{ ground with stream := s }, []⟩ w) :
      Applies p depth d ground (some w.scheduled.reverse) w.toGround

/-- Rules of the plant grammar can be applied at any node of a scene whose links make a forest. -/
theorem apply_grows (h : p.grammar = .ok g) {d : Detail} {depth : Nat} {ground : Ground}
    (hrule : d.rule ∈ ruleNames) (hdepth : depth < deepest) (hf : Scene.Forest ground.scene)
    (hplace : ground.scene.contains d.place.node) :
    Ends (g.apply ⟨d, depth⟩ ground) (p.Applies depth d ground) := by
  obtain ⟨r, hr, hstream, hbody⟩ := select_grows h hrule ground.stream
  simp only [Grammar.apply, hr]
  rcases hselect : r.select ground.stream with ⟨chosen, s⟩
  rcases hchoose : p.choose d.rule ground.stream with ⟨shoots, s'⟩
  rw [hselect, hchoose] at hstream hbody
  cases hstream
  cases hbody with
  | none => exact ⟨none, _, rfl, .skipped hchoose⟩
  | @some body shoots hbody =>
    obtain ⟨_, w, hrun, hgrows⟩ :=
      hbody depth depth d.place ⟨{ ground with stream := s }, []⟩ hdepth hf hplace
    exact ⟨_, _, by simp only [hrun], .grown hchoose hgrows⟩

end Espalier.Profile
