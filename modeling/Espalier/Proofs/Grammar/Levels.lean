import Espalier.Proofs.Grammar.History
import Mathlib.Algebra.GroupWithZero.Nat

/-!
# Expansion goes level by level

An expansion keeps one queue in which two depths mix: the rest of the running level and what that
level has scheduled so far. `levels` is the same growth without a queue: a level is a list of
details, all of one depth, and what its histories scheduled is the next level.

Results:
1. `drain_level`: the queue runs the rest of a level as `level` does, and is then left with what
   the level scheduled, or with nothing at the bound.
2. `expand_runs_levels`: an expansion ends as its levels do, whatever the bodies do to their ground.
3. `expand_eq_levels`: if they edit it, the created nodes are those that the levels pushed.
4. `expand_levelOrder`: no detail is lost or run twice, and the created nodes are those pushed.
-/

namespace Espalier

/-! ## Levels -/

/-- What became of the details of one level. -/
structure Level where
  /-- The details, in the order in which they ran. -/
  details : List Detail
  applied : Nat
  skipped : Nat
  /-- The histories of the bodies that ran, one after the other. -/
  events : List Event

namespace Level

/-- The part of a level that is one detail. -/
def single (d : Detail) (chosen : Bool) (events : List Event) : Level :=
  ⟨[d], if chosen then 1 else 0, if chosen then 0 else 1, events⟩

/-- Two parts of a level, one after the other. -/
def append (l l' : Level) : Level :=
  ⟨l.details ++ l'.details, l.applied + l'.applied, l.skipped + l'.skipped, l.events ++ l'.events⟩

/-- The details that the level scheduled. -/
def scheduled (l : Level) : List Detail := l.events.filterMap Event.detail?

/-- The nodes that the level put into the scene. -/
def pushed (l : Level) : List NodeId := l.events.filterMap Event.node?

theorem scheduled_append (l l' : Level) :
    (l.append l').scheduled = l.scheduled ++ l'.scheduled :=
  List.filterMap_append

theorem pushed_append (l l' : Level) : (l.append l').pushed = l.pushed ++ l'.pushed :=
  List.filterMap_append

end Level

/-- What waits when the given levels have run: at first the start, later what the last level
scheduled. -/
def waiting (start : Detail) (ls : List Level) : List Detail :=
  match ls.getLast? with
  | none => [start]
  | some l => l.scheduled

/-- The account of an expansion that ran the given levels. -/
def Report.ofLevels (start : Detail) (ls : List Level) : Report where
  applied := (ls.map (·.applied)).sum
  skipped := (ls.map (·.skipped)).sum
  dropped := (waiting start ls).length
  created := ls.flatMap (·.pushed)

/-- The detail that an expansion begins with. -/
def Expansion.first (x : Expansion) : Detail := ⟨x.start, x.place.getD (.origin Scene.root)⟩

namespace Grammar

variable {a : Access}

/-- Runs the details of one level from left to right, all at the same depth. -/
def level (g : Grammar a) (depth : Nat) : List Detail → EStateM Failure Ground Level
  | [], ground => .ok ⟨[], 0, 0, []⟩ ground
  | d :: ds, ground =>
    match g.apply ⟨d, depth⟩ ground with
    | .error f ground' => .error f ground'
    | .ok chosen ground' =>
      match g.level depth ds ground' with
      | .error f ground' => .error f ground'
      | .ok rest ground' =>
        .ok ((Level.single d chosen.isSome (g.events ⟨d, depth⟩ ground)).append rest) ground'

/-- Runs the topmost `n` levels, the first of which is the start. -/
def levels (g : Grammar a) (start : Detail) : (n : Nat) → EStateM Failure Ground (List Level)
  | 0, ground => .ok [] ground
  | n + 1, ground =>
    match g.levels start n ground with
    | .error f ground' => .error f ground'
    | .ok above ground' =>
      match g.level n (waiting start above) ground' with
      | .error f ground' => .error f ground'
      | .ok l ground' => .ok (above ++ [l]) ground'

/-! ## Runs of levels -/

variable {g : Grammar a}

theorem waiting_append (start : Detail) (ls : List Level) (l : Level) :
    waiting start (ls ++ [l]) = l.scheduled := by
  simp [waiting]

theorem level_cons_ok {depth : Nat} {d : Detail} {ds : List Detail} {l : Level}
    {ground ground' : Ground} (h : g.level depth (d :: ds) ground = .ok l ground') :
    ∃ chosen ground₁ rest, g.apply ⟨d, depth⟩ ground = .ok chosen ground₁ ∧
      g.level depth ds ground₁ = .ok rest ground' ∧
      l = (Level.single d chosen.isSome (g.events ⟨d, depth⟩ ground)).append rest := by
  rw [level] at h
  split at h
  · cases h
  next chosen ground₁ happly =>
    split at h
    · cases h
    next rest ground₂ hrest =>
      cases h
      exact ⟨chosen, ground₁, rest, happly, hrest, rfl⟩

theorem level_cons {depth : Nat} {d : Detail} {ds : List Detail} {chosen : Option (List Detail)}
    {rest : Level} {ground ground₁ ground' : Ground}
    (happly : g.apply ⟨d, depth⟩ ground = .ok chosen ground₁)
    (hrest : g.level depth ds ground₁ = .ok rest ground') :
    g.level depth (d :: ds) ground =
      .ok ((Level.single d chosen.isSome (g.events ⟨d, depth⟩ ground)).append rest) ground' := by
  simp only [level, happly, hrest]

theorem scheduled_single {p : Pending} {chosen : Option (List Detail)} {ground ground' : Ground}
    (h : g.apply p ground = .ok chosen ground') :
    (Level.single p.toDetail chosen.isSome (g.events p ground)).scheduled = chosen.getD [] :=
  apply_scheduled h

theorem levels_succ {start : Detail} {n : Nat} {above : List Level} {l : Level}
    {ground ground₁ ground' : Ground} (habove : g.levels start n ground = .ok above ground₁)
    (hl : g.level n (waiting start above) ground₁ = .ok l ground') :
    g.levels start (n + 1) ground = .ok (above ++ [l]) ground' := by
  simp only [levels, habove, hl]

theorem levels_succ_ok {start : Detail} {n : Nat} {ls : List Level} {ground ground' : Ground}
    (h : g.levels start (n + 1) ground = .ok ls ground') :
    ∃ above ground₁ l, g.levels start n ground = .ok above ground₁ ∧
      g.level n (waiting start above) ground₁ = .ok l ground' ∧ ls = above ++ [l] := by
  rw [levels] at h
  split at h
  · cases h
  next above ground₁ habove =>
    split at h
    · cases h
    next l ground₂ hl =>
      cases h
      exact ⟨above, ground₁, l, habove, hl, rfl⟩

/-- A level runs each of its details, once. -/
theorem level_details {depth : Nat} {ds : List Detail} {l : Level} {ground ground' : Ground}
    (h : g.level depth ds ground = .ok l ground') :
    l.details = ds ∧ l.applied + l.skipped = ds.length := by
  induction ds generalizing l ground with
  | nil => cases h; exact ⟨rfl, rfl⟩
  | cons d ds ih =>
    obtain ⟨chosen, ground₁, rest, -, hrest, rfl⟩ := level_cons_ok h
    obtain ⟨hdetails, hcount⟩ := ih hrest
    refine ⟨by rw [Level.append, hdetails]; rfl, ?_⟩
    cases chosen <;> simp [Level.append, Level.single] <;> omega

theorem levels_length {start : Detail} {n : Nat} {ls : List Level} {ground ground' : Ground}
    (h : g.levels start n ground = .ok ls ground') : ls.length = n := by
  induction n generalizing ls ground' with
  | zero => cases h; rfl
  | succ n ih =>
    obtain ⟨above, ground₁, l, habove, -, rfl⟩ := levels_succ_ok h
    rw [List.length_append, ih habove]
    rfl

/-- Every detail of the levels runs once: its rule is applied or skipped. -/
theorem levels_details {start : Detail} {n : Nat} {ls : List Level} {ground ground' : Ground}
    (h : g.levels start n ground = .ok ls ground') :
    (ls.map (·.applied)).sum + (ls.map (·.skipped)).sum = (ls.map (·.details.length)).sum := by
  induction n generalizing ls ground' with
  | zero => cases h; rfl
  | succ n ih =>
    obtain ⟨above, ground₁, l, habove, hl, rfl⟩ := levels_succ_ok h
    obtain ⟨hdetails, hcount⟩ := level_details hl
    have hrest := ih habove
    simp only [List.map_append, List.sum_append, List.map_singleton, List.sum_singleton, hdetails]
    omega

/-- The first level is the start, each later one is what the level above it has scheduled, and what
the last one has scheduled waits. -/
theorem levels_chain {start : Detail} {n : Nat} {ls : List Level} {ground ground' : Ground}
    (h : g.levels start n ground = .ok ls ground') :
    ls.map (·.details) ++ [waiting start ls] = [start] :: ls.map (·.scheduled) := by
  induction n generalizing ls ground' with
  | zero => cases h; rfl
  | succ n ih =>
    obtain ⟨above, ground₁, l, habove, hl, rfl⟩ := levels_succ_ok h
    obtain ⟨hdetails, -⟩ := level_details hl
    rw [waiting_append, List.map_append, List.map_singleton, hdetails, ih habove, List.map_append]
    rfl

/-- Every scheduled detail, and the start, is run by some level or still waits. -/
theorem levels_scheduled {start : Detail} {n : Nat} {ls : List Level} {ground ground' : Ground}
    (h : g.levels start n ground = .ok ls ground') :
    (ls.map (·.details.length)).sum + (waiting start ls).length =
      1 + (ls.map (·.scheduled.length)).sum := by
  have hchain := congrArg (fun dss => (dss.map List.length).sum) (levels_chain h)
  simpa [Function.comp_def] using hchain

/-! ## Nodes that levels create

Only bodies that edit their scene leave all its nodes there. -/

section Edits

variable {g : Grammar}

theorem pushed_single {p : Pending} {chosen : Option (List Detail)} {ground ground' : Ground}
    (h : g.apply p ground = .ok chosen ground') :
    (Level.single p.toDetail chosen.isSome (g.events p ground)).pushed =
      ground'.scene.since ground.scene.size := by
  have hpushed := apply_pushed g p ground
  rwa [h] at hpushed

theorem level_evolves (depth : Nat) (ds : List Detail) (ground : Ground) :
    Scene.Evolves ground.scene (final (g.level depth ds ground)).scene := by
  induction ds generalizing ground with
  | nil => exact Scene.evolves_refl _
  | cons d ds ih =>
    have happly := apply_evolves g ⟨d, depth⟩ ground
    rw [level]
    split
    next h => rwa [h] at happly
    next chosen ground₁ h =>
      rw [h] at happly
      have hrest := ih ground₁
      split
      next h' => exact Scene.evolves_trans happly (by rwa [h'] at hrest)
      next h' => exact Scene.evolves_trans happly (by rwa [h'] at hrest)

/-- A level pushes the nodes that the scene has gained. -/
theorem level_pushed {depth : Nat} {ds : List Detail} {l : Level} {ground ground' : Ground}
    (h : g.level depth ds ground = .ok l ground') :
    l.pushed = ground'.scene.since ground.scene.size := by
  induction ds generalizing l ground with
  | nil => cases h; exact (Scene.since_self _).symm
  | cons d ds ih =>
    obtain ⟨chosen, ground₁, rest, happly, hrest, rfl⟩ := level_cons_ok h
    have hfirst := apply_evolves g ⟨d, depth⟩ ground
    have hlater := level_evolves (g := g) depth ds ground₁
    rw [happly] at hfirst
    rw [hrest] at hlater
    rw [Level.pushed_append, ih hrest, pushed_single happly]
    exact Scene.since_append_of_evolves hfirst hlater

theorem levels_evolves (start : Detail) (n : Nat) (ground : Ground) :
    Scene.Evolves ground.scene (final (g.levels start n ground)).scene := by
  induction n with
  | zero => exact Scene.evolves_refl _
  | succ n ih =>
    rw [levels]
    split
    next h => rwa [h] at ih
    next above ground₁ h =>
      rw [h] at ih
      have hlevel := level_evolves (g := g) n (waiting start above) ground₁
      split
      next h' => exact Scene.evolves_trans ih (by rwa [h'] at hlevel)
      next h' => exact Scene.evolves_trans ih (by rwa [h'] at hlevel)

/-- The levels push the nodes that the scene has gained. -/
theorem levels_pushed {start : Detail} {n : Nat} {ls : List Level} {ground ground' : Ground}
    (h : g.levels start n ground = .ok ls ground') :
    ls.flatMap (·.pushed) = ground'.scene.since ground.scene.size := by
  induction n generalizing ls ground' with
  | zero => cases h; exact (Scene.since_self _).symm
  | succ n ih =>
    obtain ⟨above, ground₁, l, habove, hl, rfl⟩ := levels_succ_ok h
    have hfirst := levels_evolves (g := g) start n ground
    have hlast := level_evolves (g := g) n (waiting start above) ground₁
    rw [habove] at hfirst
    rw [hl] at hlast
    rw [List.flatMap_append, ih habove, List.flatMap_singleton, level_pushed hl]
    exact Scene.since_append_of_evolves hfirst hlast

end Edits

/-! ## The queue runs a level -/

theorem drain_nil {bound : Nat} {tally : Tally} {queue : Queue Pending} {ground : Ground}
    (h : queue.toList = []) : g.drain bound tally queue ground = .ok tally ground := by
  rw [drain]
  split
  · rfl
  next p rest htake =>
    rw [Queue.toList_of_take? htake] at h
    cases h

theorem keep_append (bound depth : Nat) (ds ds' : List Detail) :
    keep bound depth (ds ++ ds') = keep bound depth ds ++ keep bound depth ds' := by
  unfold keep
  split
  · exact List.map_append
  · rfl

/-- The tally after one more part of a level. -/
def addLevel (bound depth : Nat) (tally : Tally) (l : Level) : Tally where
  applied := tally.applied + l.applied
  skipped := tally.skipped + l.skipped
  dropped := tally.dropped + (l.scheduled.length - (keep bound depth l.scheduled).length)

theorem addLevel_append (bound depth : Nat) (tally : Tally) (l l' : Level) :
    addLevel bound depth tally (l.append l') =
      addLevel bound depth (addLevel bound depth tally l) l' := by
  have hdropped : ∀ ds ds' : List Detail,
      (ds ++ ds').length - (keep bound depth (ds ++ ds')).length =
        (ds.length - (keep bound depth ds).length) +
          (ds'.length - (keep bound depth ds').length) := by
    intro ds ds'
    unfold keep
    split <;> simp
  simp only [addLevel, Level.scheduled_append, hdropped]
  simp only [Level.append, Nat.add_assoc]

/-- The queue takes its first detail, and what that schedules joins at the end. -/
theorem drain_cons (bound : Nat) (tally : Tally) {queue : Queue Pending} {p : Pending}
    {ps : List Pending} (h : queue.toList = p :: ps) :
    ∃ rest : Queue Pending, rest.toList = ps ∧ ∀ ground,
      g.drain bound tally queue ground =
        match g.apply p ground with
        | .error f ground' => .error f ground'
        | .ok chosen ground' =>
          g.drain bound
            (addLevel bound p.depth tally (.single p.toDetail chosen.isSome (g.events p ground)))
            (rest.addAll (keep bound p.depth (chosen.getD []))) ground' := by
  cases htake : queue.take? with
  | none =>
    rw [Queue.take?_eq_none_iff.mp htake] at h
    cases h
  | some taken =>
    obtain ⟨q, rest⟩ := taken
    have hq := Queue.toList_of_take? htake
    rw [h] at hq
    cases hq
    refine ⟨rest, rfl, fun ground => ?_⟩
    rw [drain]
    split
    next hnone => rw [htake] at hnone; cases hnone
    next p' rest' hsome =>
      rw [htake] at hsome
      cases hsome
      cases happly : g.apply p ground with
      | error f ground' => rfl
      | ok chosen ground' =>
        simp only [addLevel, scheduled_single happly]
        cases chosen with
        | none => simp [Level.single, keep, Queue.addAll]
        | some scheduled => rfl

/-- The queue holds the rest of a level, and behind it what the level has scheduled so far. It runs
the rest as `level` does, and then holds all that the level scheduled. -/
theorem drain_level {bound depth : Nat} (ds sofar : List Detail) (tally : Tally)
    (queue : Queue Pending) (ground : Ground)
    (hq : queue.toList = ds.map (Pending.mk · depth) ++ keep bound depth sofar) :
    match g.level depth ds ground with
    | .error f ground' => g.drain bound tally queue ground = .error f ground'
    | .ok l ground' => ∃ rest : Queue Pending,
      rest.toList = keep bound depth (sofar ++ l.scheduled) ∧
      g.drain bound tally queue ground =
        g.drain bound (addLevel bound depth tally l) rest ground' := by
  -- Induction on the rest of the level: what its first detail schedules is added to `sofar`.
  induction ds generalizing sofar tally queue ground with
  | nil =>
    refine ⟨queue, ?_, ?_⟩
    · rw [hq]
      simp [Level.scheduled]
    · simp [addLevel, Level.scheduled]
  | cons d ds ih =>
    rw [List.map_cons, List.cons_append] at hq
    obtain ⟨rest, hrest, hdrain⟩ := drain_cons (g := g) bound tally hq
    rw [hdrain ground, level]
    cases happly : g.apply ⟨d, depth⟩ ground with
    | error f ground₁ => rfl
    | ok chosen ground₁ =>
      have hadded : (rest.addAll (keep bound depth (chosen.getD []))).toList =
          ds.map (Pending.mk · depth) ++ keep bound depth (sofar ++ chosen.getD []) := by
        rw [Queue.toList_addAll, hrest, keep_append, List.append_assoc]
      have hlater := ih (sofar ++ chosen.getD [])
        (addLevel bound depth tally (.single d chosen.isSome (g.events ⟨d, depth⟩ ground)))
        _ ground₁ hadded
      dsimp only
      cases hlevel : g.level depth ds ground₁ with
      | error f ground₂ =>
        rw [hlevel] at hlater
        exact hlater
      | ok l ground₂ =>
        rw [hlevel] at hlater
        obtain ⟨rest', hrest', hdrain'⟩ := hlater
        refine ⟨rest', ?_, ?_⟩
        · rw [hrest', Level.scheduled_append, ← apply_scheduled happly, List.append_assoc]
          rfl
        · rw [addLevel_append]
          exact hdrain'

/-! ## The queue runs all levels -/

/-- What the queue holds once the topmost `n` levels have run. -/
def queued (bound n : Nat) (ds : List Detail) : List Pending :=
  if n ≤ bound then ds.map (Pending.mk · n) else []

/-- The tally once the topmost `n` levels have run. -/
def tallied (bound n : Nat) (start : Detail) (ls : List Level) : Tally where
  applied := (ls.map (·.applied)).sum
  skipped := (ls.map (·.skipped)).sum
  dropped := if n ≤ bound then 0 else (waiting start ls).length

theorem tallied_append {bound n : Nat} (hn : n ≤ bound) (start : Detail) (ls : List Level)
    (l : Level) :
    tallied bound (n + 1) start (ls ++ [l]) =
      addLevel bound n (tallied bound n start ls) l := by
  simp only [tallied, addLevel, waiting_append, List.map_append, List.sum_append, keep, hn]
  by_cases hlt : n < bound
  · simp [hlt, Nat.succ_le_of_lt hlt]
  · simp [hlt, Nat.not_le.mpr (Nat.lt_succ_of_le (Nat.not_lt.mp hlt))]

theorem drain_levels {bound n : Nat} (hn : n ≤ bound + 1) (start : Detail) (ground : Ground) :
    match g.levels start n ground with
    | .error f ground' =>
      g.drain bound ⟨0, 0, 0⟩ (.single ⟨start, 0⟩) ground = .error f ground'
    | .ok ls ground' => ∃ rest : Queue Pending,
      rest.toList = queued bound n (waiting start ls) ∧
      g.drain bound ⟨0, 0, 0⟩ (.single ⟨start, 0⟩) ground =
        g.drain bound (tallied bound n start ls) rest ground' := by
  induction n with
  | zero => exact ⟨.single ⟨start, 0⟩, by simp [queued, waiting], by simp [tallied]⟩
  | succ n ih =>
    -- Between two levels the queue holds the details of the next one and nothing else, which is
    -- the queue of `drain_level` before anything was scheduled.
    have hbound : n ≤ bound := Nat.le_of_succ_le_succ hn
    have habove := ih (Nat.le_succ_of_le hbound)
    rw [levels]
    cases hlevels : g.levels start n ground with
    | error f ground₁ =>
      rw [hlevels] at habove
      exact habove
    | ok ls ground₁ =>
      rw [hlevels] at habove
      obtain ⟨queue, hqueue, hdrain⟩ := habove
      have hq : queue.toList =
          (waiting start ls).map (Pending.mk · n) ++ keep bound n [] := by
        rw [hqueue, queued, if_pos hbound]
        simp [keep]
      have hlevel := drain_level (g := g) _ [] (tallied bound n start ls) queue ground₁ hq
      dsimp only
      cases hl : g.level n (waiting start ls) ground₁ with
      | error f ground₂ =>
        rw [hl] at hlevel
        exact hdrain.trans hlevel
      | ok l ground₂ =>
        rw [hl] at hlevel
        obtain ⟨rest, hrest, hdrain'⟩ := hlevel
        refine ⟨rest, ?_, ?_⟩
        · rw [hrest, List.nil_append, waiting_append]
          rfl
        · rw [hdrain, hdrain', tallied_append hbound]

/-! ## Expansion -/

/-- A deeper run ends as a shallower one that has failed. -/
theorem levels_error_of_le {start : Detail} {n m : Nat} (hnm : n ≤ m) {f : Failure}
    {ground ground' : Ground} (h : g.levels start n ground = .error f ground') :
    g.levels start m ground = .error f ground' := by
  induction hnm with
  | refl => exact h
  | step _ ih => rw [levels, ih]

theorem levels_of_unknown {start : Detail} (h : g.rule? start.rule = none) (n : Nat)
    (ground : Ground) :
    g.levels start (n + 1) ground = .error (.error (.unknownRule start.rule)) ground := by
  refine levels_error_of_le (Nat.le_add_left 1 n) ?_
  simp only [levels, waiting, List.getLast?_nil, level, apply, h]

/-- An expansion ends as its levels do, with the tally of the levels. -/
theorem expand_runs_levels (g : Grammar a) (x : Expansion) (ground : Ground) :
    g.expand x ground =
      match g.levels x.first (x.depth.toNat + 1) ground with
      | .error f ground' => .error f ground'
      | .ok ls ground' =>
        .ok ⟨(Report.ofLevels x.first ls).toTally, ground'.scene.since ground.scene.size⟩
          ground' := by
  unfold expand
  split
  next hknown =>
    have hdrain := drain_levels (g := g) (Nat.le_refl (x.depth.toNat + 1)) x.first ground
    have hfirst : (⟨x.start, x.place.getD (.origin Scene.root)⟩ : Detail) = x.first := rfl
    dsimp only
    rw [hfirst]
    cases hlevels : g.levels x.first (x.depth.toNat + 1) ground with
    | error f ground' =>
      rw [hlevels] at hdrain
      dsimp only at hdrain
      simp only [hdrain]
    | ok ls ground' =>
      rw [hlevels] at hdrain
      obtain ⟨rest, hrest, hdrain⟩ := hdrain
      have hempty : rest.toList = [] := by
        rw [hrest, queued, if_neg (Nat.not_succ_le_self _)]
      simp only [hdrain, drain_nil hempty, Report.ofLevels, tallied,
        if_neg (Nat.not_succ_le_self x.depth.toNat)]
  next hunknown =>
    have hrule : g.rule? x.first.rule = none := by
      simpa [contains, Expansion.first] using hunknown
    simp only [levels_of_unknown hrule]
    rfl

theorem expand_eq_error {x : Expansion} {f : Failure} {ground ground' : Ground} :
    g.expand x ground = .error f ground' ↔
      g.levels x.first (x.depth.toNat + 1) ground = .error f ground' := by
  rw [expand_runs_levels]
  cases g.levels x.first (x.depth.toNat + 1) ground <;> simp

theorem levels_of_expand_eq_ok {x : Expansion} {r : Report} {ground ground' : Ground}
    (h : g.expand x ground = .ok r ground') :
    ∃ ls, g.levels x.first (x.depth.toNat + 1) ground = .ok ls ground' ∧
      r.toTally = (Report.ofLevels x.first ls).toTally := by
  rw [expand_runs_levels] at h
  split at h
  · cases h
  next ls ground₁ hlevels =>
    cases h
    exact ⟨ls, hlevels, rfl⟩

/-- An expansion by edits ends as its levels do, with the account of the levels. -/
theorem expand_eq_levels (g : Grammar) (x : Expansion) :
    g.expand x = Report.ofLevels x.first <$> g.levels x.first (x.depth.toNat + 1) := by
  funext ground
  rw [expand_runs_levels]
  simp only [Functor.map, EStateM.map]
  cases hlevels : g.levels x.first (x.depth.toNat + 1) ground with
  | error f ground' => rfl
  | ok ls ground' => simp only [Report.ofLevels, levels_pushed hlevels]

theorem expand_eq_ok {g : Grammar} {x : Expansion} {r : Report} {ground ground' : Ground} :
    g.expand x ground = .ok r ground' ↔
      ∃ ls, g.levels x.first (x.depth.toNat + 1) ground = .ok ls ground' ∧
        r = Report.ofLevels x.first ls := by
  rw [expand_eq_levels]
  simp only [Functor.map, EStateM.map]
  cases g.levels x.first (x.depth.toNat + 1) ground with
  | ok ls ground₁ =>
    constructor
    · intro h; cases h; exact ⟨ls, rfl, rfl⟩
    · rintro ⟨_, h, rfl⟩; cases h; rfl
  | error f ground₁ => simp

/-- An expansion is an expansion level by level: it ends alike, in its report or its failure and in
the ground that it leaves. If it ends well, no detail was lost or run twice, and the created nodes
are those that were pushed, each once and in order. -/
theorem expand_levelOrder (g : Grammar) (x : Expansion) :
    g.expand x = Report.ofLevels x.first <$> g.levels x.first (x.depth.toNat + 1) ∧
    ∀ r ground ground', g.expand x ground = .ok r ground' →
      ∃ ls, g.levels x.first (x.depth.toNat + 1) ground = .ok ls ground' ∧
        ls.length = x.depth.toNat + 1 ∧
        ls.map (·.details) ++ [waiting x.first ls] = [x.first] :: ls.map (·.scheduled) ∧
        r.applied + r.skipped = (ls.map (·.details.length)).sum ∧
        r.applied + r.skipped + r.dropped = 1 + (ls.map (·.scheduled.length)).sum ∧
        r.created = ls.flatMap (·.pushed) ∧ r.created.Pairwise (· < ·) ∧
        ∀ id, id ∈ r.created ↔ ground.scene.size ≤ id ∧ id < ground'.scene.size := by
  refine ⟨expand_eq_levels g x, fun r ground ground' h => ?_⟩
  obtain ⟨ls, hlevels, rfl⟩ := expand_eq_ok.mp h
  have hcreated := levels_pushed hlevels
  have hdetails := levels_details hlevels
  have hscheduled := levels_scheduled hlevels
  rw [← hdetails] at hscheduled
  refine ⟨ls, hlevels, levels_length hlevels, levels_chain hlevels, hdetails, hscheduled, rfl, ?_,
    fun id => ?_⟩
  · show (ls.flatMap (·.pushed)).Pairwise (· < ·)
    rw [hcreated]
    exact List.pairwise_lt_range'
  · show id ∈ ls.flatMap (·.pushed) ↔ _
    rw [hcreated]
    exact Scene.mem_since

end Grammar

end Espalier
