import Espalier.Proofs.Grammar.Levels
import Espalier.Proofs.Grammar.Registration
import Espalier.Proofs.Random.Choice

/-!
# What the rules of an expansion choose

Every detail of an expansion tries its rule once, by the word that the stream stands at. A plain
rule always has a body to run, and a rule with a probability has none if its draw comes up empty. A
weighted rule that was made by definitions has one of its alternatives, unless the weights, each of
which was accepted, add up to more than a double can hold: then it never has one.

Results:
1. `expand_trials`: what an expansion skips are the trials that miss.
2. `Entry.select_weighted`, `Registers.misses`: what a weighted rule chooses, and why a trial misses.
3. `after_selects`: what misses in a grammar that was made by definitions.
4. `accepted_weights_overflow`: weights that were accepted and of which none is ever chosen.
-/

namespace Espalier

/-! ## Trials -/

variable {a : Access}

/-- What the weights of the alternatives add up to. -/
def totalWeight (alternatives : List (Alternative a)) : Float :=
  Stream.usableTotal (alternatives.map (·.weight))

/-- The choice of one application: the rule, and the stream that it finds. -/
structure Trial (a : Access) where
  rule : Rule a
  stream : Stream

namespace Trial

/-- No body is chosen. -/
def misses (t : Trial a) : Bool := (t.rule.select t.stream).1.isNone

/-- The rule has a probability, and its draw comes up empty. -/
def comesUpEmpty : Trial a → Bool
  | ⟨.maybe probability _, s⟩ => !s.chance probability
  | _ => false

/-- The rule is weighted, and its weights add up to more than a double can hold. -/
def overflows : Trial a → Bool
  | ⟨.weighted alternatives, _⟩ => !(totalWeight alternatives).isFinite
  | _ => false

end Trial

namespace Grammar

variable {g : Grammar a} {start : Detail} {depth n : Nat} {ds : List Detail} {t : Trial a}
  {ground ground' : Ground} {name : String} {r : Rule a}

/-- What the details of one level try, one after the other. -/
def levelTrials (g : Grammar a) (depth : Nat) : List Detail → Ground → List (Trial a)
  | [], _ => []
  | d :: ds, ground =>
    (g.rule? d.rule).toList.map (Trial.mk · ground.stream) ++
      g.levelTrials depth ds (final (g.apply ⟨d, depth⟩ ground))

/-- What the details of the topmost `n` levels try. -/
def trials (g : Grammar a) (start : Detail) : (n : Nat) → Ground → List (Trial a)
  | 0, _ => []
  | n + 1, ground => g.trials start n ground ++
    match g.levels start n ground with
    | .ok above ground' => g.levelTrials n (waiting start above) ground'
    | .error _ _ => []

/-- An application answers as its trial does. -/
theorem apply_trial {p : Pending} {chosen : Option (List Detail)}
    (h : g.apply p ground = .ok chosen ground') :
    ∃ r, g.rule? p.rule = some r ∧ chosen.isNone = Trial.misses ⟨r, ground.stream⟩ := by
  obtain ⟨scene, stream, notes⟩ := ground
  rw [apply] at h
  cases hr : g.rule? p.rule with
  | none =>
    rw [hr] at h
    cases h
  | some r =>
    refine ⟨r, rfl, ?_⟩
    rw [hr] at h
    dsimp only at h
    rw [Trial.misses]
    split at h
    next hselect =>
      cases h
      rw [hselect]
      rfl
    next hselect =>
      rw [hselect]
      split at h <;> cases h
      rfl

/-- A level tries each of its details, and skips those that miss. -/
theorem level_trials {l : Level} (h : g.level depth ds ground = .ok l ground') :
    (g.levelTrials depth ds ground).length = l.applied + l.skipped ∧
      l.skipped = (g.levelTrials depth ds ground).countP Trial.misses := by
  induction ds generalizing l ground with
  | nil =>
    cases h
    exact ⟨rfl, rfl⟩
  | cons d ds ih =>
    obtain ⟨chosen, ground₁, rest, happly, hrest, rfl⟩ := level_cons_ok h
    obtain ⟨hlength, hskipped⟩ := ih hrest
    obtain ⟨r, hr, hmisses⟩ := apply_trial happly
    rw [levelTrials, happly, hr]
    simp only [Option.toList_some, List.map_singleton, List.singleton_append, List.length_cons,
      List.countP_cons, final, hlength, ← hskipped, ← hmisses, Level.append, Level.single]
    cases chosen <;> simp <;> omega

/-- The levels try each of their details, and skip those that miss. -/
theorem levels_trials {ls : List Level} (h : g.levels start n ground = .ok ls ground') :
    (g.trials start n ground).length = (ls.map (·.applied)).sum + (ls.map (·.skipped)).sum ∧
      (ls.map (·.skipped)).sum = (g.trials start n ground).countP Trial.misses := by
  induction n generalizing ls ground' with
  | zero =>
    cases h
    exact ⟨rfl, rfl⟩
  | succ n ih =>
    obtain ⟨above, ground₁, l, habove, hl, rfl⟩ := levels_succ_ok h
    obtain ⟨hlength, hskipped⟩ := ih habove
    obtain ⟨hlength', hskipped'⟩ := level_trials hl
    rw [trials, habove]
    simp only [List.length_append, List.countP_append, List.map_append, List.sum_append,
      List.map_singleton, List.sum_singleton]
    omega

/-- An expansion that ends well tries each of its details, and skips those that miss. -/
theorem expand_trials {x : Expansion} {report : Report}
    (h : g.expand x ground = .ok report ground') :
    let tried := g.trials x.first (x.depth.toNat + 1) ground
    tried.length = report.applied + report.skipped ∧ report.skipped = tried.countP Trial.misses := by
  obtain ⟨ls, hls, htally⟩ := levels_of_expand_eq_ok h
  have happlied : report.applied = (ls.map (·.applied)).sum := congrArg Tally.applied htally
  have hskipped : report.skipped = (ls.map (·.skipped)).sum := congrArg Tally.skipped htally
  rw [happlied, hskipped]
  exact levels_trials hls

theorem mem_levelTrials (h : t ∈ g.levelTrials depth ds ground) :
    ∃ name, g.rule? name = some t.rule := by
  induction ds generalizing ground with
  | nil => cases h
  | cons d ds ih =>
    rw [levelTrials, List.mem_append, List.mem_map] at h
    rcases h with ⟨r, hr, rfl⟩ | h
    · exact ⟨d.rule, Option.mem_toList.mp hr⟩
    · exact ih h

/-- What is tried are rules of the grammar. -/
theorem mem_trials (h : t ∈ g.trials start n ground) : ∃ name, g.rule? name = some t.rule := by
  induction n with
  | zero => cases h
  | succ n ih =>
    rw [trials, List.mem_append] at h
    rcases h with h | h
    · exact ih h
    · split at h
      · exact mem_levelTrials h
      · cases h

/-! ## Trials in a grammar of definitions -/

/-- A weighted rule that is registered chooses one of its alternatives and takes a word, or it
chooses none and takes none. It depends on the total which. -/
theorem Entry.select_weighted {alternatives : List (Alternative a)} {defs : List (Definition a)}
    (h : Entry name (some (.weighted alternatives)) defs) (s : Stream) :
    ((totalWeight alternatives).isFinite ∧
      ∃ a ∈ alternatives, (Rule.weighted alternatives).select s = (some a.body, s.advance)) ∨
    (¬(totalWeight alternatives).isFinite ∧
      (Rule.weighted alternatives).select s = (none, s)) := by
  cases h with
  | weighted _ hne hrange =>
    rcases Stream.pick_cases (alternatives.map (·.weight)) s with
      ⟨husable, k, ⟨w, hw, -⟩, hpick⟩ | ⟨hunusable, hpick⟩
    · rw [List.getElem?_map, Option.map_eq_some_iff] at hw
      obtain ⟨a, ha, -⟩ := hw
      refine .inl ⟨(Stream.isUsable_iff.mp husable).1, a, List.mem_of_getElem? ha, ?_⟩
      simp only [Rule.select, hpick, ha, Option.map_some]
    · refine .inr ⟨fun hfinite => ?_, by simp only [Rule.select, hpick]⟩
      -- There is an alternative, and its weight alone makes the total positive.
      obtain ⟨a, ha⟩ := List.exists_mem_of_ne_nil alternatives hne
      have hpos : 0 < totalWeight alternatives :=
        Stream.usableTotal_pos_iff.mpr
          ⟨a.weight, List.mem_map_of_mem ha, Stream.isUsable_iff.mpr (hrange a ha)⟩
      exact Bool.eq_false_iff.mp hunusable (Stream.isUsable_iff.mpr ⟨hfinite, hpos⟩)

/-- What makes a registered rule miss. -/
theorem Entry.misses {defs : List (Definition a)} (h : Entry name (some r) defs) (s : Stream) :
    Trial.misses ⟨r, s⟩ = (Trial.comesUpEmpty ⟨r, s⟩ || Trial.overflows ⟨r, s⟩) := by
  cases r with
  | plain body => rfl
  | maybe probability body =>
    simp only [Trial.misses, Trial.comesUpEmpty, Trial.overflows, Rule.select]
    cases s.chance probability <;> rfl
  | weighted alternatives =>
    simp only [Trial.misses, Trial.comesUpEmpty, Trial.overflows]
    rcases h.select_weighted s with ⟨hfinite, a, -, hselect⟩ | ⟨hinfinite, hselect⟩
    · rw [hselect, hfinite]
      rfl
    · rw [hselect, Bool.eq_false_iff.mpr hinfinite]
      rfl

/-- What makes a trial miss in a grammar that holds accepted definitions only. -/
theorem Registers.misses {kept : List (Definition a)} (h : Registers kept g)
    (ht : t ∈ g.trials start n ground) : t.misses = (t.comesUpEmpty || t.overflows) := by
  obtain ⟨name, hr⟩ := mem_trials ht
  have hentry := h.entry name
  rw [hr] at hentry
  exact hentry.misses t.stream

/-- No trial overflows if the weights of every rule are finite in total. -/
theorem overflows_of_finite (hfinite : ∀ name alternatives,
    g.rule? name = some (.weighted alternatives) → (totalWeight alternatives).isFinite)
    (ht : t ∈ g.trials start n ground) : t.overflows = false := by
  obtain ⟨name, hr⟩ := mem_trials ht
  obtain ⟨r, s⟩ := t
  cases r with
  | plain body => rfl
  | maybe probability body => rfl
  | weighted alternatives =>
    rw [Trial.overflows, hfinite name alternatives hr]
    rfl

/-- After any definitions: a weighted rule always chooses one of its alternatives if its weights add
up to something finite, and never if not. An expansion tries each of its details once, and skips
those whose draw comes up empty or whose weights add up to too much. If the weights of no rule do,
it skips the empty draws only. A choice by weight finds nothing if no weight is finite and positive,
and otherwise only if those that are add up to too much. -/
theorem after_selects (defs : List (Definition a)) :
    let g := empty.after defs
    (∀ name alternatives s, g.rule? name = some (.weighted alternatives) →
      ((totalWeight alternatives).isFinite →
        ∃ a ∈ alternatives, (Rule.weighted alternatives).select s = (some a.body, s.advance)) ∧
      (¬(totalWeight alternatives).isFinite →
        (Rule.weighted alternatives).select s = (none, s))) ∧
    (∀ x ground report ground', g.expand x ground = .ok report ground' →
      let tried := g.trials x.first (x.depth.toNat + 1) ground
      tried.length = report.applied + report.skipped ∧
      report.skipped = tried.countP (fun t => t.comesUpEmpty || t.overflows) ∧
      ((∀ name alternatives, g.rule? name = some (.weighted alternatives) →
          (totalWeight alternatives).isFinite) →
        report.skipped = tried.countP Trial.comesUpEmpty)) ∧
    ∀ weights s, (Stream.pick weights s).1 = none ↔
      (∀ w ∈ weights, ¬(w.isFinite ∧ 0 < w)) ∨ ¬(Stream.usableTotal weights).isFinite := by
  intro g
  have hregisters : Registers (empty.accepted defs) g := empty_registers.after defs
  refine ⟨fun name alternatives s hr => ?_, fun x ground report ground' h => ?_,
    fun weights s => ?_⟩
  · have hentry := hregisters.entry name
    rw [hr] at hentry
    rcases hentry.select_weighted s with ⟨hfinite, hchosen⟩ | ⟨hinfinite, hnone⟩
    · exact ⟨fun _ => hchosen, fun hinfinite => absurd hfinite hinfinite⟩
    · exact ⟨fun hfinite => absurd hfinite hinfinite, fun _ => hnone⟩
  · intro tried
    obtain ⟨hlength, hskipped⟩ := expand_trials h
    refine ⟨hlength, hskipped.trans (List.countP_congr fun t ht => ?_), fun hfinite =>
      hskipped.trans (List.countP_congr fun t ht => ?_)⟩
    · rw [hregisters.misses ht]
    · rw [hregisters.misses ht, overflows_of_finite hfinite ht, Bool.or_false]
  · rw [Stream.pick_eq_none_iff]
    simp only [Stream.isUsable_iff]

/-! ## Weights that add up to too much -/

theorem rule?_after_twice {weight : Float} (husable : Stream.isUsable weight) (name : String)
    (body : Body a) :
    (empty.after (List.replicate 2 (.weighted name weight body))).rule? name =
      some (.weighted (List.replicate 2 ⟨weight, body⟩)) := by
  have hfirst : empty.define (.weighted name weight body) =
      .ok (empty.insert name (.weighted [⟨weight, body⟩])) := by
    rw [define, if_neg (by simpa using husable)]
    rfl
  have hheld : (empty.insert name (.weighted [⟨weight, body⟩])).rule? name =
      some (.weighted [⟨weight, body⟩]) := by
    rw [rule?_insert rfl, if_pos rfl]
  have hsecond : (empty.insert name (.weighted [⟨weight, body⟩])).define
      (.weighted name weight body) =
        .ok ((empty.insert name (.weighted [⟨weight, body⟩])).replace name
          (.weighted (List.replicate 2 ⟨weight, body⟩))) := by
    rw [define, if_neg (by simpa using husable), hheld]
    rfl
  simp only [after, List.replicate, List.foldl_cons, List.foldl_nil]
  rw [offer_of_ok hfirst, offer_of_ok hsecond, rule?_replace, hheld, Option.map_some, if_pos rfl]
  rfl

/-- Weights that are accepted and of which none is ever chosen, though all are finite and positive.
The expansion skips the rule, though no draw came up empty. -/
theorem accepted_weights_overflow :
    let body : Body := fun _ _ => .done ()
    let g := empty.after (List.replicate 2 (.weighted "r" 1e308 body))
    let alternatives : List Alternative := List.replicate 2 ⟨1e308, body⟩
    let ground : Ground := ⟨.empty, .ofSeed 0, []⟩
    let x : Expansion := ⟨"r", 0, none⟩
    g.rule? "r" = some (.weighted alternatives) ∧
    (∀ s, ¬∃ a ∈ alternatives, ((Rule.weighted alternatives).select s).1 = some a.body) ∧
    (∃ report, g.expand x ground = .ok report ground ∧ report.skipped = 1 ∧
      (g.trials x.first 1 ground).countP Trial.comesUpEmpty = 0) ∧
    (∀ w ∈ [(1e308 : Float), 1e308], w.isFinite ∧ 0 < w) ∧
    ((Stream.ofSeed 0).pick [1e308, 1e308]).1 = none := by
  intro body g alternatives ground x
  have hrange : ∀ w ∈ [(1e308 : Float), 1e308], w.isFinite ∧ 0 < w := by decide +kernel
  have htotal : ¬(Stream.usableTotal [1e308, 1e308]).isFinite := by decide +kernel
  have hrule : g.rule? "r" = some (.weighted alternatives) :=
    rule?_after_twice (Stream.isUsable_iff.mpr (hrange _ List.mem_cons_self)) "r" body
  have hpick : ∀ s, Stream.pick [1e308, 1e308] s = (none, s) := fun s => by
    rcases Stream.pick_cases [1e308, 1e308] s with ⟨husable, -⟩ | ⟨-, hnone⟩
    · exact absurd (Stream.isUsable_iff.mp husable).1 htotal
    · exact hnone
  have hselect : ∀ s, (Rule.weighted alternatives).select s = (none, s) := fun s => by
    have hweights : alternatives.map (·.weight) = [1e308, 1e308] := rfl
    simp only [Rule.select, hweights, hpick]
  have happly : g.apply ⟨x.first, 0⟩ ground = .ok none ground := by
    have hfound : g.rule? x.first.rule = some (.weighted alternatives) := hrule
    simp only [apply, hfound, hselect]
  have htrials : g.trials x.first 1 ground = [⟨.weighted alternatives, ground.stream⟩] := by
    have hfound : g.rule? x.first.rule = some (.weighted alternatives) := hrule
    simp [trials, levels, waiting, levelTrials, hfound]
  refine ⟨hrule, fun s => ?_, ⟨_, expand_eq_ok.mpr
    ⟨_, levels_succ rfl (level_cons happly rfl), rfl⟩, rfl, ?_⟩, hrange, by rw [hpick]⟩
  · rintro ⟨a, -, hchosen⟩
    rw [hselect] at hchosen
    cases hchosen
  · rw [htrials]
    rfl

end Grammar

end Espalier
