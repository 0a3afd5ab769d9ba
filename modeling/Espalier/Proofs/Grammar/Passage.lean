import Espalier.Proofs.Grammar.Levels

/-!
# Where an expansion fails

A running expansion takes the oldest detail of its queue, applies the rule, and puts what was
scheduled at the end. An application fails if the rule is unknown or if its body fails. The first
does not happen behind the check of the start rule, since a body can schedule nothing unknown: such
a detail is refused, and the refusal is up to the body. So all failures are those of a body.

That is so whatever the bodies do to their ground. One that takes the scene away and puts another in
its place has no more to do with the queue than one that edits it.

Results:
1. `apply_known`: what an application schedules names known rules, whatever its body does.
2. `Passes.order`, `Passes.known`: which details have run when, and that all in line are known.
3. `Passes.drain`, `exists_passes`: the queue of an expansion makes these passes, to their end.
4. `expand_fails_in_body`: what an expansion fails with, and where it stops.
-/

namespace Espalier

/-- The queue of a running expansion, oldest first, and its ground. -/
structure Line where
  queue : List Pending
  ground : Ground

/-- An application of a rule that ended well. -/
structure Pass where
  taken : Pending
  /-- What it put at the end of the queue. -/
  joined : List Pending

/-- What an expansion begins with. -/
def Expansion.line (x : Expansion) (ground : Ground) : Line := ⟨[⟨x.first, 0⟩], ground⟩

namespace Grammar

variable {a : Access} {g : Grammar a} {x : Expansion} {bound : Nat} {p : Pending} {l l' : Line}
  {passes : List Pass} {f : Failure} {ground ground' : Ground}

/-- A running expansion takes the oldest detail again and again, and none of the applications
fails. -/
inductive Passes (g : Grammar a) (bound : Nat) : Line → List Pass → Line → Prop
  | here (l : Line) : Passes g bound l [] l
  | next {p : Pending} {behind : List Pending} {ground ground' : Ground}
      {chosen : Option (List Detail)} {passes : List Pass} {l : Line}
      (applied : g.apply p ground = .ok chosen ground')
      (later : Passes g bound ⟨behind ++ keep bound p.depth (chosen.getD []), ground'⟩ passes l) :
      Passes g bound ⟨p :: behind, ground⟩ (⟨p, keep bound p.depth (chosen.getD [])⟩ :: passes) l

/-- The body that the oldest detail selects fails, and leaves this ground. -/
inductive Fails (g : Grammar a) : Line → Failure → Ground → Prop
  | body {p : Pending} {behind : List Pending} {ground : Ground} {r : Rule a} {body : Body a}
      {stream : Stream} {f : Failure} {w : Workspace}
      (found : g.rule? p.rule = some r)
      (selected : r.select ground.stream = (some body, stream))
      (failed : (body p.depth p.place).run g.contains p.depth ⟨{ ground with stream }, []⟩ =
        .error f w) :
      Fails g ⟨p :: behind, ground⟩ f w.toGround

/-! ## Known rules -/

/-- A body schedules known rules only, also one that goes on when a detail is refused. -/
theorem events_known (known : String → Bool) (depth : Nat) {β : Type} (m : Build a β)
    (ground : Ground) : ∀ d ∈ (m.events known depth ground).filterMap Event.detail?,
      known d.rule := by
  refine Build.run_invariant (R := fun _ es _ => ∀ d ∈ es.filterMap Event.detail?, known d.rule)
    known depth ?_ ?_ ?_ ?_ ?_ ?_ ?_ m ⟨ground, []⟩
  · intro w; exact nofun
  · intro w₁ w₂ w₃ es es' h h'
    rw [List.filterMap_append]
    exact List.forall_mem_append.mpr ⟨h, h'⟩
  · intro w e
    rw [Event.details_pushed]
    exact nofun
  · intro w move; exact nofun
  · intro _ w move; exact nofun
  · intro w d hd
    exact List.forall_mem_singleton.mpr hd
  · intro w n; exact nofun

theorem apply_known {chosen : Option (List Detail)} (h : g.apply p ground = .ok chosen ground') :
    ∀ d ∈ chosen.getD [], g.contains d.rule := by
  rw [← apply_scheduled h]
  rcases apply_cases g p ground with ⟨-, body, stream, -, -, hevents, -⟩ | ⟨hevents, -⟩
  · rw [hevents]
    exact events_known g.contains p.depth (body p.depth p.place) _
  · rw [hevents]
    exact nofun

theorem mem_keep {depth : Nat} {ds : List Detail} (h : p ∈ keep bound depth ds) :
    p.toDetail ∈ ds := by
  unfold keep at h
  split at h
  · obtain ⟨d, hd, rfl⟩ := List.mem_map.mp h
    exact hd
  · cases h

/-- The application of a known rule fails as the body that it selects. -/
theorem apply_error_iff (hknown : g.contains p.rule) (behind : List Pending) :
    g.apply p ground = .error f ground' ↔ g.Fails ⟨p :: behind, ground⟩ f ground' := by
  constructor
  · intro h
    rcases apply_cases g p ground with
      ⟨r, body, stream, hr, hselect, -, happly⟩ | ⟨-, ⟨hnone, -⟩ | ⟨stream, happly⟩⟩
    · rw [happly] at h
      split at h
      · cases h
      next hfailed =>
        cases h
        exact .body hr hselect hfailed
    · rw [contains, hnone] at hknown
      cases hknown
    · rw [happly] at h
      cases h
  · rintro (@⟨_, _, ⟨scene, stream, notes⟩, r, body, _, _, w, hr, hselect, hfailed⟩)
    simp only [apply, hr, hselect, hfailed]

/-! ## Passes -/

namespace Passes

/-- Details are taken in the order in which they join, and none is lost. -/
theorem order (h : g.Passes bound l passes l') :
    l.queue ++ passes.flatMap (·.joined) = passes.map (·.taken) ++ l'.queue := by
  induction h with
  | here l => simp
  | next applied later ih =>
    rw [List.flatMap_cons, List.map_cons, List.cons_append, List.cons_append, ← ih,
      List.append_assoc]

/-- If all details in line have known rules, then so have those in line later. -/
theorem known (h : g.Passes bound l passes l') (hknown : ∀ p ∈ l.queue, g.contains p.rule) :
    ∀ p ∈ l'.queue, g.contains p.rule := by
  induction h with
  | here l => exact hknown
  | next applied later ih =>
    refine ih (List.forall_mem_append.mpr ⟨(List.forall_mem_cons.mp hknown).2, fun q hq => ?_⟩)
    exact apply_known applied q.toDetail (mem_keep hq)

/-- Behind its passes, an expansion ends as if it had only just come to where they lead. -/
theorem drain (h : g.Passes bound l passes l') (tally : Tally) (queue : Queue Pending)
    (hqueue : queue.toList = l.queue) :
    ∃ tally' queue', queue'.toList = l'.queue ∧
      g.drain bound tally queue l.ground = g.drain bound tally' queue' l'.ground := by
  induction h generalizing tally queue with
  | here l => exact ⟨tally, queue, hqueue, rfl⟩
  | next applied later ih =>
    obtain ⟨rest, hrest, hdrain⟩ := drain_cons (g := g) bound tally hqueue
    rw [hdrain, applied]
    refine ih _ _ ?_
    rw [Queue.toList_addAll, hrest]

end Passes

/-- From any queue, an expansion goes on until nothing is left or an application fails. -/
theorem exists_passes (g : Grammar a) (bound : Nat) : ∀ l : Line, ∃ passes l',
    g.Passes bound l passes l' ∧ (l'.queue = [] ∨ ∃ p behind f ground',
      l'.queue = p :: behind ∧ g.apply p l'.ground = .error f ground')
  | ⟨[], ground⟩ => ⟨[], _, .here _, .inl rfl⟩
  | ⟨p :: behind, ground⟩ =>
    match happly : g.apply p ground with
    | .error f ground' => ⟨[], _, .here _, .inr ⟨p, behind, f, ground', rfl, happly⟩⟩
    | .ok chosen ground' =>
      let ⟨_, l', hpasses, hend⟩ :=
        exists_passes g bound ⟨behind ++ keep bound p.depth (chosen.getD []), ground'⟩
      ⟨_, l', .next happly hpasses, hend⟩
termination_by l => WorkRank.ofLevels bound (l.queue.map (·.depth))
decreasing_by
  rw [List.map_cons, List.map_append]
  refine WorkRank.ofLevels_replace ?_ ?_
  · intro k hk
    simp only [keep] at hk
    split at hk <;> simp_all
  · intro hb
    simp [keep, Nat.not_lt.2 (Nat.le_of_lt hb)]

/-! ## Failures -/

theorem expand_of_known (hknown : g.contains x.start) (ground : Ground) :
    g.expand x ground =
      match g.drain x.depth.toNat ⟨0, 0, 0⟩ (.single ⟨x.first, 0⟩) ground with
      | .ok tally ground' => .ok ⟨tally, ground'.scene.since ground.scene.size⟩ ground'
      | .error f ground' => .error f ground' := by
  rw [expand, if_pos hknown]
  rfl

/-- Behind its passes, an expansion fails if the oldest detail does. -/
theorem expand_of_apply_error (hknown : g.contains x.start)
    (h : g.Passes x.depth.toNat (x.line ground) passes l) {behind : List Pending}
    (hl : l.queue = p :: behind) (happly : g.apply p l.ground = .error f ground') :
    g.expand x ground = .error f ground' := by
  obtain ⟨tally, queue, hqueue, hdrain⟩ := h.drain ⟨0, 0, 0⟩ (.single ⟨x.first, 0⟩) rfl
  obtain ⟨rest, -, hnext⟩ := drain_cons (g := g) x.depth.toNat tally (hqueue.trans hl)
  rw [hnext, happly] at hdrain
  rw [expand_of_known hknown, show g.drain _ _ _ ground = _ from hdrain]

/-- An expansion that fails has made passes up to a detail that does. -/
theorem passes_of_expand_error (hknown : g.contains x.start)
    (h : g.expand x ground = .error f ground') :
    ∃ passes l p behind, g.Passes x.depth.toNat (x.line ground) passes l ∧
      l.queue = p :: behind ∧ g.apply p l.ground = .error f ground' := by
  obtain ⟨passes, l, hpasses, hempty | ⟨p, behind, f', ground'', hl, happly⟩⟩ :=
    g.exists_passes x.depth.toNat (x.line ground)
  · obtain ⟨tally, queue, hqueue, hdrain⟩ := hpasses.drain ⟨0, 0, 0⟩ (.single ⟨x.first, 0⟩) rfl
    rw [drain_nil (hqueue.trans hempty)] at hdrain
    rw [expand_of_known hknown, show g.drain _ _ _ ground = _ from hdrain] at h
    cases h
  · rw [expand_of_apply_error hknown hpasses hl happly] at h
    cases h
    exact ⟨passes, l, p, behind, hpasses, hl, happly⟩

/-- The bodies may do anything to their ground. An expansion whose start rule is unknown fails at
once and leaves the ground as it was. Any other takes details in the order in which they were put
into its queue, and at any time it knows the rules of all that are in line. It fails if and only if
the body of a detail does that has come to the head of the queue, with the same failure and with the
ground as this body leaves it. Those behind it have not run then. -/
theorem expand_fails_in_body (g : Grammar a) (x : Expansion) (ground : Ground) :
    (¬g.contains x.start →
      g.expand x ground = .error (.error (.unknownRule x.start)) ground) ∧
    (g.contains x.start →
      (∀ passes l, g.Passes x.depth.toNat (x.line ground) passes l →
        ⟨x.first, 0⟩ :: passes.flatMap (·.joined) = passes.map (·.taken) ++ l.queue ∧
          ∀ p ∈ l.queue, ∃ r, g.rule? p.rule = some r) ∧
      ∀ f ground', g.expand x ground = .error f ground' ↔
        ∃ passes l, g.Passes x.depth.toNat (x.line ground) passes l ∧ g.Fails l f ground') := by
  refine ⟨fun hunknown => by rw [expand, if_neg hunknown], fun hknown => ?_⟩
  have hline : ∀ {passes l}, g.Passes x.depth.toNat (x.line ground) passes l →
      ∀ p ∈ l.queue, g.contains p.rule := fun h => h.known (List.forall_mem_singleton.mpr hknown)
  refine ⟨fun passes l h => ⟨h.order, fun p hp => Option.isSome_iff_exists.mp (hline h p hp)⟩,
    fun f ground' => ⟨fun h => ?_, ?_⟩⟩
  · obtain ⟨passes, ⟨queue, ground₁⟩, p, behind, hpasses, rfl, happly⟩ :=
      passes_of_expand_error hknown h
    have hhead := hline hpasses p List.mem_cons_self
    exact ⟨passes, _, hpasses, (apply_error_iff hhead behind).mp happly⟩
  · rintro ⟨passes, ⟨_ | ⟨p, behind⟩, ground₁⟩, hpasses, hfails⟩
    · cases hfails
    · have hhead := hline hpasses p List.mem_cons_self
      exact expand_of_apply_error hknown hpasses rfl ((apply_error_iff hhead behind).mpr hfails)

/-- A start that goes on when an unknown detail is refused, and schedules two that are known. The
first of these clears the scene and fails. -/
def halting : Grammar .free :=
  ⟨[("start", .plain fun _ place =>
      .detail "gone" place fun _ => .detail "halt" place fun _ => .detail "late" place fun _ =>
        .done ()),
    ("halt", .plain fun _ _ =>
      .replace rfl (fun ground => { ground with scene := .empty }) fun _ =>
        .stop (.error (.unknownRule "halted"))),
    ("late", .plain fun _ _ => .note (.drew .done) (.done ()))]⟩

/-- The expansion fails as the first of the two does, on a cleared scene, while the second is still
in line. -/
theorem halting_fails_in_body :
    let ground : Ground := ⟨Scene.empty.push (.isolated .structural .identity), .ofSeed 0, []⟩
    let late : Pending := ⟨⟨"late", .origin Scene.root⟩, 1⟩
    halting.contains "start" ∧
    halting.expand ⟨"start", 1, none⟩ ground =
      .error (.error (.unknownRule "halted")) { ground with scene := .empty } ∧
    ∃ passes p, halting.Passes 1 ⟨[⟨⟨"start", .origin Scene.root⟩, 0⟩], ground⟩ passes
      ⟨[p, late], ground⟩ ∧ p.rule = "halt" := by
  intro ground late
  have hpasses : halting.Passes 1 ⟨[⟨⟨"start", .origin Scene.root⟩, 0⟩], ground⟩ _
      ⟨[⟨⟨"halt", .origin Scene.root⟩, 1⟩, late], ground⟩ :=
    .next rfl (.here _)
  obtain ⟨-, hknown⟩ := expand_fails_in_body halting ⟨"start", 1, none⟩ ground
  obtain ⟨-, hfails⟩ := hknown rfl
  have hhalt : halting.Fails ⟨[⟨⟨"halt", .origin Scene.root⟩, 1⟩, late], ground⟩ _
      { ground with scene := .empty } :=
    .body (w := ⟨{ ground with scene := .empty }, []⟩) rfl rfl rfl
  exact ⟨rfl, (hfails _ _).mpr ⟨_, _, hpasses, hhalt⟩, _, _, hpasses, rfl⟩

end Grammar

end Espalier
