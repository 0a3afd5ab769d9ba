import Espalier.Proofs.Grammar.Levels
import Espalier.Proofs.Scene.Planted

/-!
# Grammars that cannot fail

A body fails if an edit is refused, if it draws from an empty interval, or if it schedules an
unknown rule or one that is too deep. A body that tends its scene does none of this on a planted
scene at a point of it; it leaves the scene planted, the old nodes where they were, and schedules
known rules at points of the scene. If all bodies of a grammar are such, no expansion fails.

Results:
1. `ends_bind`, `ends_perform`, `ends_draw`, `ends_schedule`: how to show that a body ends well.
2. `Sustains.level`, `Sustains.levels`: what every application of a rule keeps, an expansion keeps.
3. `expand_ends`: a grammar whose bodies tend never fails.
4. `expand_tended`: an expansion that ends well tends its scene, even one that goes too deep to be
   sure not to fail.
-/

namespace Espalier

/-- A run ends well, with a value and a state that meet the condition. -/
def Ends {ε σ β : Type} (r : EStateM.Result ε σ β) (Q : β → σ → Prop) : Prop :=
  ∃ value s, r = .ok value s ∧ Q value s

theorem Ends.mono {ε σ β : Type} {r : EStateM.Result ε σ β} {Q R : β → σ → Prop} (h : Ends r Q)
    (hQR : ∀ value s, Q value s → R value s) : Ends r R := by
  obtain ⟨value, s, hr, hQ⟩ := h
  exact ⟨value, s, hr, hQR value s hQ⟩

/-- The scene is planted, and some details can be run on it: their rules are known and their places
are points of the scene. -/
structure Ready (known : String → Bool) (s : Scene Float32) (ds : List Detail) : Prop where
  planted : Scene.Planted s
  known : ∀ d ∈ ds, known d.rule
  place : ∀ d ∈ ds, s.contains d.place.node

namespace Ready

variable {known : String → Bool} {s s' : Scene Float32} {d : Detail} {ds ds' : List Detail}

theorem nil (h : Scene.Planted s) : Ready known s [] :=
  ⟨h, fun _ hd => (nomatch hd), fun _ hd => (nomatch hd)⟩

theorem cons (hknown : known d.rule) (hplace : s.contains d.place.node) (h : Ready known s ds) :
    Ready known s (d :: ds) :=
  ⟨h.planted, List.forall_mem_cons.mpr ⟨hknown, h.known⟩,
    List.forall_mem_cons.mpr ⟨hplace, h.place⟩⟩

theorem subset (h : Ready known s ds) (hsub : ds' ⊆ ds) : Ready known s ds' :=
  ⟨h.planted, fun d hd => h.known d (hsub hd), fun d hd => h.place d (hsub hd)⟩

theorem append (h : Ready known s ds) (h' : Ready known s ds') : Ready known s (ds ++ ds') :=
  ⟨h.planted, List.forall_mem_append.mpr ⟨h.known, h'.known⟩,
    List.forall_mem_append.mpr ⟨h.place, h'.place⟩⟩

/-- What can be run on a scene can be run on what has grown from it. -/
theorem later (h : Ready known s ds) (hs : Scene.Stays s s') (hs' : Scene.Planted s') :
    Ready known s' ds :=
  ⟨hs', h.known, fun d hd => hs.contains (h.place d hd)⟩

end Ready

/-! ## Bodies -/

/-- The workspace with another scene. -/
def Workspace.withScene (w : Workspace) (s : Scene Float32) : Workspace := { w with scene := s }

/-- The workspace with one word drawn. -/
def Workspace.drawn (w : Workspace) : Workspace := { w with stream := w.stream.advance }

namespace Build

variable {a : Access} {known : String → Bool} {depth : Nat} {β γ : Type}

theorem run_bind (m : Build a β) (f : β → Build a γ) (w : Workspace) :
    (m >>= f).run known depth w =
      match m.run known depth w with
      | .ok value w' => (f value).run known depth w'
      | .error failure w' => .error failure w' := by
  show (m.bind f).run known depth w = _
  induction m generalizing w with
  | done value => rfl
  | stop failure => rfl
  | edit e next ih =>
    obtain ⟨⟨scene, stream, notes⟩, scheduled⟩ := w
    simp only [bind, run]
    cases e.run scene with
    | ok answer scene' => exact ih _ _
    | error failure scene' =>
      cases failure with
      | error err => exact ih _ _
      | fault f => rfl
  | view next ih => exact ih _ _
  | random move next ih => exact ih _ _
  | replace licence move next ih => exact ih _ _
  | detail rule place next ih =>
    simp only [bind, run]
    split
    · exact ih _ _
    · split
      · rfl
      · exact ih _ _
  | note n next ih => exact ih _

theorem ends_pure {value : β} {w : Workspace} {Q : β → Workspace → Prop} (h : Q value w) :
    Ends ((pure value : Build a β).run known depth w) Q :=
  ⟨value, w, rfl, h⟩

/-- A run that begins with an accepted edit goes on behind it. -/
theorem ends_perform {e : Edit Float32} {answer : e.Answer} {s' : Scene Float32}
    {f : e.Answer → Build a β} {w : Workspace} {Q : β → Workspace → Prop}
    (hrun : e.run w.scene = .ok answer s')
    (hrest : Ends ((f answer).run known depth (w.withScene s')) Q) :
    Ends ((perform e >>= f).run known depth w) Q := by
  obtain ⟨value, w', hf, hQ⟩ := hrest
  refine ⟨value, w', ?_, hQ⟩
  show run known depth (edit e fun r => (ofExcept r).bind f) w = _
  rw [run, hrun]
  exact hf

theorem ends_bind {m : Build a β} {f : β → Build a γ} {w : Workspace} {Q : β → Workspace → Prop}
    {R : γ → Workspace → Prop} (h : Ends (m.run known depth w) Q)
    (hrest : ∀ value w', Q value w' → Ends ((f value).run known depth w') R) :
    Ends ((m >>= f).run known depth w) R := by
  obtain ⟨value, w', hrun, hQ⟩ := h
  rw [run_bind, hrun]
  exact hrest value w' hQ

theorem ends_draw {value : Stream → β} {f : β → Build a γ} {w : Workspace}
    {Q : γ → Workspace → Prop}
    (hrest : Ends ((f (value w.stream)).run known depth w.drawn) Q) :
    Ends ((draw value >>= f).run known depth w) Q :=
  hrest

theorem ends_drawWithin {low high : Float32} (hlow : low < high) {f : Float32 → Build a γ}
    {w : Workspace} {Q : γ → Workspace → Prop}
    (hrest : Ends ((f (w.stream.within low high)).run known depth w.drawn) Q) :
    Ends ((drawWithin low high >>= f).run known depth w) Q := by
  rw [drawWithin, if_pos hlow]
  exact hrest

/-- A known rule can be scheduled anywhere, unless the next level is too deep. -/
theorem run_schedule {rule : String} (hdepth : depth < deepest) (hrule : known rule)
    (place : Point Float32) (w : Workspace) :
    (schedule rule place : Build a Unit).run known depth w =
      .ok () { w with scheduled := ⟨rule, place⟩ :: w.scheduled } := by
  show run known depth (detail rule place ofExcept) w = _
  rw [run, hrule, if_neg (Nat.ne_of_lt hdepth)]
  rfl

/-- A run that ends well has scheduled nothing too deep, so it ends alike at any other level. -/
theorem run_eq_of_ok {level : Nat} (hlevel : level < deepest) {m : Build a β} {value : β}
    {w w' : Workspace} (h : m.run known depth w = .ok value w') :
    m.run known level w = .ok value w' := by
  rcases run_cases known depth m w with ⟨hrun, -⟩ | ⟨-, -, w'', hrun⟩
  · rw [run_of_lt hlevel, ← hrun, h]
  · rw [hrun] at h
    cases h

theorem ends_schedule {rule : String} {place : Point Float32} {f : Unit → Build a γ}
    {w : Workspace} {Q : γ → Workspace → Prop} (hdepth : depth < deepest) (hrule : known rule)
    (hrest : Ends ((f ()).run known depth { w with scheduled := ⟨rule, place⟩ :: w.scheduled }) Q) :
    Ends ((schedule rule place >>= f).run known depth w) Q := by
  rw [run_bind, run_schedule hdepth hrule]
  exact hrest

/-- A program that starts on a scene where what it has scheduled can be run: it ends well, it leaves
such a scene again, with the old nodes where they were, and its value meets the condition there. -/
def Tends (known : String → Bool) (depth : Nat) (m : Build a β) (w : Workspace)
    (Q : β → Scene Float32 → Prop) : Prop :=
  Ends (m.run known depth w) fun value w' =>
    Ready known w'.scene w'.scheduled ∧ Scene.Stays w.scene w'.scene ∧ Q value w'.scene

end Build

/-- The body tends every scene, at any of its points, whatever depth it is told. -/
def Body.Tends (known : String → Bool) (body : Body) : Prop :=
  ∀ depth level place w, level < deepest → Ready known w.scene w.scheduled →
    w.scene.contains place.node →
    Build.Tends known level (body depth place) w fun _ _ => True

/-! ## Grammars -/

/-- The bodies of a rule. -/
def Rule.bodies {a : Access} : Rule a → List (Body a)
  | .plain body => [body]
  | .weighted alternatives => alternatives.map (·.body)
  | .maybe _ body => [body]

theorem Rule.select_mem {a : Access} {r : Rule a} {s s' : Stream} {body : Body a}
    (h : r.select s = (some body, s')) : body ∈ r.bodies := by
  cases r with
  | plain body' =>
    cases h
    exact List.mem_singleton_self _
  | weighted alternatives =>
    simp only [select] at h
    split at h
    next i _ _ =>
      obtain ⟨hget, -⟩ := Prod.mk.inj h
      obtain ⟨_, halternative, rfl⟩ := Option.map_eq_some_iff.mp hget
      exact List.mem_map_of_mem (List.mem_of_getElem? halternative)
    · cases h
  | maybe probability body' =>
    simp only [select, Prod.mk.injEq] at h
    obtain ⟨hchosen, -⟩ := h
    split at hchosen
    · cases hchosen
      exact List.mem_singleton_self _
    · cases hchosen

namespace Grammar

variable {g : Grammar} {ground : Ground}

/-! ## What an expansion sustains -/

/-- The grammar sustains a law of scenes, conditions for the details at each depth and a law of the
nodes that are created there, and stays within a frame, which says what becomes of a scene that
grows. No application of a rule at a detail that meets the conditions fails, it stays within the
frame, the law of scenes holds again, and the conditions and the law of nodes hold of what was added.
What holds of a detail or a node stays true within the frame. -/
structure Sustains (g : Grammar) (frame : Scene Float32 → Scene Float32 → Prop)
    (law : Scene Float32 → Prop) (runs : Nat → Scene Float32 → Detail → Prop)
    (made : Nat → Scene Float32 → NodeId → Prop) : Prop where
  refl : ∀ s, frame s s
  trans : ∀ {s₁ s₂ s₃}, frame s₁ s₂ → frame s₂ s₃ → frame s₁ s₃
  apply : ∀ {depth d} {ground : Ground}, depth < deepest → law ground.scene →
    runs depth ground.scene d → Ends (g.apply ⟨d, depth⟩ ground) fun chosen ground' =>
      law ground'.scene ∧ frame ground.scene ground'.scene ∧
      (∀ d' ∈ chosen.getD [], runs (depth + 1) ground'.scene d') ∧
      ∀ id ∈ ground'.scene.since ground.scene.size, made depth ground'.scene id
  runs_stays : ∀ {depth s s' d}, law s → frame s s' → runs depth s d → runs depth s' d
  made_stays : ∀ {depth s s' id}, law s → frame s s' → made depth s id → made depth s' id

namespace Sustains

variable {frame : Scene Float32 → Scene Float32 → Prop} {law : Scene Float32 → Prop}
  {runs : Nat → Scene Float32 → Detail → Prop} {made : Nat → Scene Float32 → NodeId → Prop}

/-- What the details of a level have scheduled can be run one level deeper. -/
theorem level (h : g.Sustains frame law runs made) {depth : Nat} (hdepth : depth < deepest)
    {ds : List Detail} (hlaw : law ground.scene) (hds : ∀ d ∈ ds, runs depth ground.scene d) :
    Ends (g.level depth ds ground) fun l ground' =>
      law ground'.scene ∧ frame ground.scene ground'.scene ∧
      (∀ d ∈ l.scheduled, runs (depth + 1) ground'.scene d) ∧
      ∀ id ∈ l.pushed, made depth ground'.scene id := by
  induction ds generalizing ground with
  | nil => exact ⟨_, ground, rfl, hlaw, h.refl _, nofun, nofun⟩
  | cons d ds ih =>
    obtain ⟨hd, hds⟩ := List.forall_mem_cons.mp hds
    obtain ⟨chosen, ground₁, happly, hlaw₁, hfirst, hchosen, hnew⟩ := h.apply hdepth hlaw hd
    obtain ⟨rest, ground₂, hrest, hlaw₂, hlater, hscheduled, hpushed⟩ :=
      ih hlaw₁ fun d hd => h.runs_stays hlaw hfirst (hds d hd)
    refine ⟨_, ground₂, level_cons happly hrest, hlaw₂, h.trans hfirst hlater, ?_, ?_⟩
    · rw [Level.scheduled_append, scheduled_single happly]
      exact List.forall_mem_append.mpr
        ⟨fun d hd => h.runs_stays hlaw₁ hlater (hchosen d hd), hscheduled⟩
    · rw [Level.pushed_append, pushed_single happly]
      exact List.forall_mem_append.mpr
        ⟨fun id hid => h.made_stays hlaw₁ hlater (hnew id hid), hpushed⟩

theorem levels (h : g.Sustains frame law runs made) {start : Detail} (hlaw : law ground.scene)
    (hstart : runs 0 ground.scene start) {n : Nat} (hn : n ≤ deepest) :
    Ends (g.levels start n ground) fun ls ground' =>
      law ground'.scene ∧ frame ground.scene ground'.scene ∧
      (∀ d ∈ waiting start ls, runs n ground'.scene d) ∧
      ∀ i l, ls[i]? = some l → ∀ id ∈ l.pushed, made i ground'.scene id := by
  induction n with
  | zero =>
    refine ⟨[], ground, rfl, hlaw, h.refl _, fun d hd => ?_, nofun⟩
    rwa [List.mem_singleton.mp hd]
  | succ n ih =>
    obtain ⟨above, ground₁, habove, hlaw₁, hstays, hwaiting, hmade⟩ := ih (Nat.le_of_succ_le hn)
    obtain ⟨l, ground₂, hl, hlaw₂, hstays', hscheduled, hpushed⟩ := h.level hn hlaw₁ hwaiting
    refine ⟨above ++ [l], ground₂, levels_succ habove hl, hlaw₂,
      h.trans hstays hstays', ?_, fun i l' hi => ?_⟩
    · rwa [waiting_append]
    · rcases Nat.lt_or_ge i above.length with hlt | hge
      · rw [List.getElem?_append_left hlt] at hi
        exact fun id hid => h.made_stays hlaw₁ hstays' (hmade i l' hi id hid)
      · rw [List.getElem?_append_right hge, List.getElem?_singleton] at hi
        split at hi
        next hlast =>
          have hlength : above.length = n := levels_length habove
          obtain rfl : i = n := by omega
          cases hi
          exact hpushed
        · cases hi

end Sustains

/-! ## Grammars that tend -/

/-- All bodies of the grammar tend. -/
def Tends (g : Grammar) : Prop :=
  ∀ name r, g.rule? name = some r → ∀ body ∈ r.bodies, Body.Tends g.contains body

theorem apply_ends (hg : g.Tends) {p : Pending} (hdepth : p.depth < deepest)
    (hp : Ready g.contains ground.scene [p.toDetail]) :
    Ends (g.apply p ground) fun chosen ground' =>
      Ready g.contains ground'.scene (chosen.getD []) ∧
        Scene.Stays ground.scene ground'.scene := by
  have hknown : (g.rule? p.rule).isSome := hp.known _ List.mem_cons_self
  rcases apply_cases g p ground with
    ⟨r, body, stream, hr, hselect, -, h⟩ | ⟨-, ⟨hnone, -⟩ | ⟨stream, h⟩⟩
  · obtain ⟨_, w, hrun, hready, hstays, -⟩ := hg p.rule r hr body (Rule.select_mem hselect)
      p.depth p.depth p.place ⟨{ ground with stream }, []⟩ hdepth (.nil hp.planted)
      (hp.place _ List.mem_cons_self)
    rw [hrun] at h
    exact ⟨_, _, h, hready.subset (List.reverse_subset.mpr (List.Subset.refl _)), hstays⟩
  · rw [hnone] at hknown
    cases hknown
  · exact ⟨_, _, h, .nil hp.planted, Scene.stays_refl _⟩

/-- A grammar that tends keeps its scene planted, and what it schedules can be run. -/
theorem Tends.sustains (hg : g.Tends) :
    g.Sustains Scene.Stays Scene.Planted
      (fun _ s d => g.contains d.rule ∧ s.contains d.place.node) fun _ _ _ => True where
  refl := Scene.stays_refl
  trans := Scene.stays_trans
  apply hdepth hplanted hd := by
    refine (apply_ends hg hdepth (.cons hd.1 hd.2 (.nil hplanted))).mono
      fun chosen ground' ⟨hready, hstays⟩ => ?_
    exact ⟨hready.planted, hstays, fun d' hd' => ⟨hready.known d' hd', hready.place d' hd'⟩,
      fun _ _ => trivial⟩
  runs_stays _ hstays hd := ⟨hd.1, hstays.contains hd.2⟩
  made_stays _ _ _ := trivial

/-- An expansion of a known rule at a point of a planted scene ends well. -/
theorem expand_ends (hg : g.Tends) {x : Expansion} (hdepth : x.depth.toNat < deepest)
    (hx : Ready g.contains ground.scene [x.first]) :
    Ends (g.expand x ground) fun _ ground' =>
      Scene.Planted ground'.scene ∧ Scene.Stays ground.scene ground'.scene := by
  obtain ⟨ls, ground', hlevels, hplanted, hstays, -⟩ := hg.sustains.levels hx.planted
    ⟨hx.known _ List.mem_cons_self, hx.place _ List.mem_cons_self⟩ hdepth
  exact ⟨_, ground', expand_eq_ok.mpr ⟨ls, hlevels, rfl⟩, hplanted, hstays⟩

/-! ## Expansions that end well

Below the deepest level nothing can be scheduled, so an expansion that goes that deep may fail even
if its grammar tends. If it ends well, it has tended its scene as any other. -/

theorem apply_tended (hg : g.Tends) {p : Pending} {chosen : Option (List Detail)}
    {ground' : Ground} (hplanted : Scene.Planted ground.scene)
    (hplace : ground.scene.contains p.place.node)
    (h : g.apply p ground = .ok chosen ground') :
    Ready g.contains ground'.scene (chosen.getD []) ∧ Scene.Stays ground.scene ground'.scene := by
  rcases apply_cases g p ground with
    ⟨r, body, stream, hr, hselect, -, h'⟩ | ⟨-, ⟨-, f, h'⟩ | ⟨stream, h'⟩⟩
  · obtain ⟨_, w, hrun, hready, hstays, -⟩ := hg p.rule r hr body (Rule.select_mem hselect)
      p.depth 0 p.place ⟨{ ground with stream }, []⟩ (by decide) (.nil hplanted) hplace
    rw [h'] at h
    split at h
    next w' hrun' =>
      rw [Build.run_eq_of_ok (by decide) hrun'] at hrun
      cases hrun
      cases h
      exact ⟨hready.subset (List.reverse_subset.mpr (List.Subset.refl _)), hstays⟩
    · cases h
  · rw [h'] at h; cases h
  · rw [h'] at h
    cases h
    exact ⟨.nil hplanted, Scene.stays_refl _⟩

theorem level_tended (hg : g.Tends) {depth : Nat} {ds : List Detail} {l : Level}
    {ground' : Ground} (hds : Ready g.contains ground.scene ds)
    (h : g.level depth ds ground = .ok l ground') :
    Ready g.contains ground'.scene l.scheduled ∧ Scene.Stays ground.scene ground'.scene := by
  induction ds generalizing ground l with
  | nil =>
    cases h
    exact ⟨hds, Scene.stays_refl _⟩
  | cons d ds ih =>
    obtain ⟨chosen, ground₁, rest, happly, hrest, rfl⟩ := level_cons_ok h
    obtain ⟨hchosen, hfirst⟩ :=
      apply_tended hg hds.planted (hds.place d List.mem_cons_self) happly
    obtain ⟨hscheduled, hlater⟩ :=
      ih ((hds.subset (List.subset_cons_self d ds)).later hfirst hchosen.planted) hrest
    refine ⟨?_, Scene.stays_trans hfirst hlater⟩
    rw [Level.scheduled_append, scheduled_single happly]
    exact (hchosen.later hlater hscheduled.planted).append hscheduled

theorem levels_tended (hg : g.Tends) {start : Detail} {n : Nat} {ls : List Level}
    {ground' : Ground} (hstart : Ready g.contains ground.scene [start])
    (h : g.levels start n ground = .ok ls ground') :
    Ready g.contains ground'.scene (waiting start ls) ∧
      Scene.Stays ground.scene ground'.scene := by
  induction n generalizing ls ground' with
  | zero =>
    cases h
    exact ⟨hstart, Scene.stays_refl _⟩
  | succ n ih =>
    obtain ⟨above, ground₁, l, habove, hl, rfl⟩ := levels_succ_ok h
    obtain ⟨hwaiting, hfirst⟩ := ih habove
    obtain ⟨hscheduled, hlast⟩ := level_tended hg hwaiting hl
    rw [waiting_append]
    exact ⟨hscheduled, Scene.stays_trans hfirst hlast⟩

/-- An expansion that ends well leaves a planted scene planted, whatever its depth. -/
theorem expand_tended (hg : g.Tends) {x : Expansion} {r : Report} {ground' : Ground}
    (hx : Ready g.contains ground.scene [x.first]) (h : g.expand x ground = .ok r ground') :
    Scene.Planted ground'.scene ∧ Scene.Stays ground.scene ground'.scene := by
  obtain ⟨ls, hlevels, -⟩ := expand_eq_ok.mp h
  obtain ⟨hwaiting, hstays⟩ := levels_tended hg hx hlevels
  exact ⟨hwaiting.planted, hstays⟩

end Grammar

end Espalier
