import Espalier.Grammar.Expand
import Espalier.Proofs.Scene.Change

/-!
# What a body leaves behind

A body edits the scene, draws from the stream and schedules details. Its history lists, in order,
the two kinds of steps that an expansion accounts for: nodes put into the scene and details that
were accepted. It is read off the program of the body, not off what the run collects.

A body of free access can put another scene in the place of its own, which leaves no trace in its
history. So what is said about nodes and scenes is said of bodies that edit. What is said about
details holds of all.

Results:
1. `run_invariant`: what every step of a body keeps, a run keeps.
2. `run_scheduled`, `run_pushed`: a run collects the accepted details of its history, and the nodes
   of its history are those that the scene has gained.
3. `run_cases`: a run is the same at all levels, but for the deepest.
4. `apply_evolves`, `apply_pushed`, `apply_scheduled`: what one application of a rule leaves behind.
-/

namespace Espalier

/-! ## Events -/

/-- A step of a body that an expansion accounts for. -/
inductive Event where
  | pushed (node : NodeId)
  | scheduled (d : Detail)

namespace Event

/-- The node that was put into the scene. -/
def node? : Event → Option NodeId
  | pushed node => some node
  | scheduled _ => none

/-- The detail that was accepted. -/
def detail? : Event → Option Detail
  | pushed _ => none
  | scheduled d => some d

/-- Nodes that are pushed schedule nothing. -/
theorem details_pushed (ids : List NodeId) : (ids.map pushed).filterMap detail? = [] :=
  List.filterMap_eq_nil_iff.mpr (List.forall_mem_map.mpr fun _ _ => rfl)

end Event

/-- The history of a body that starts on the given ground. -/
def Build.events {a : Access} {β : Type} (known : String → Bool) (depth : Nat) :
    Build a β → Ground → List Event
  | done _, _ => []
  | stop _, _ => []
  | edit e next, ⟨scene, stream, notes⟩ =>
    (e.pushes scene).map .pushed ++
      match e.run scene with
      | .ok answer scene => (next (.ok answer)).events known depth ⟨scene, stream, notes⟩
      | .error (.error err) scene => (next (.error err)).events known depth ⟨scene, stream, notes⟩
      | .error (.fault _) _ => []
  | view next, g => (next g.scene).events known depth g
  | random move next, g => (next g.stream).events known depth { g with stream := move g.stream }
  | replace _ move next, g => (next g).events known depth (move g)
  | detail rule place next, g =>
    if !known rule then (next (.error (.unknownRule rule))).events known depth g
    else if depth = deepest then []
    else .scheduled ⟨rule, place⟩ :: (next (.ok ())).events known depth g
  | note n next, g => next.events known depth { g with notes := n :: g.notes }

/-- The history of one application of a rule. It is empty if no body is chosen. -/
def Grammar.events {a : Access} (g : Grammar a) (p : Pending) (ground : Ground) : List Event :=
  match g.rule? p.rule with
  | none => []
  | some r =>
    match r.select ground.stream with
    | (none, _) => []
    | (some body, stream) =>
      (body p.depth p.place).events g.contains p.depth { ground with stream }

/-! ## Runs of bodies -/

namespace Build

/-- A relation between the ground before, the history, and the ground after holds of every run if
it holds of each step and can be chained. A body that edits its scene replaces no ground. -/
theorem run_invariant {a : Access} {R : Workspace → List Event → Workspace → Prop}
    (known : String → Bool) (depth : Nat) (refl : ∀ w, R w [] w)
    (trans : ∀ {w₁ w₂ w₃ es es'}, R w₁ es w₂ → R w₂ es' w₃ → R w₁ (es ++ es') w₃)
    (edit : ∀ w (e : Edit Float32), R w ((e.pushes w.scene).map .pushed)
      { w with scene := final (e.run w.scene) })
    (random : ∀ w (move : Stream → Stream), R w [] { w with stream := move w.stream })
    (replace : a = .free → ∀ w (move : Ground → Ground),
      R w [] { w with toGround := move w.toGround })
    (detail : ∀ w d, known d.rule → R w [.scheduled d] { w with scheduled := d :: w.scheduled })
    (note : ∀ w n, R w [] { w with notes := n :: w.notes })
    {β : Type} (m : Build a β) (w : Workspace) :
    R w (m.events known depth w.toGround) (final (m.run known depth w)) := by
  induction m generalizing w with
  | done value => exact refl w
  | stop f => exact refl w
  | edit e next ih =>
    have hstep := edit w e
    obtain ⟨⟨scene, stream, notes⟩, scheduled⟩ := w
    simp only [events, run]
    cases he : e.run scene with
    | ok answer scene' =>
      simp only [he, final] at hstep
      exact trans hstep (ih (.ok answer) ⟨⟨scene', stream, notes⟩, scheduled⟩)
    | error failure scene' =>
      simp only [he, final] at hstep
      cases failure with
      | error err => exact trans hstep (ih (.error err) ⟨⟨scene', stream, notes⟩, scheduled⟩)
      | fault f =>
        rw [List.append_nil]
        exact hstep
  | view next ih => exact ih w.scene w
  | random move next ih => exact trans (random w move) (ih w.stream _)
  | replace licence move next ih => exact trans (replace licence w move) (ih w.toGround _)
  | detail rule place next ih =>
    simp only [events, run]
    split
    · exact ih _ w
    next hknown =>
      split
      · exact refl w
      · exact trans (detail w ⟨rule, place⟩ (by simpa using hknown)) (ih (.ok ()) _)
  | note n next ih => exact trans (note w n) (ih _)

end Build

/-! ## What a run collects -/

namespace Build

variable {a : Access} {β : Type}

theorem run_evolves (known : String → Bool) (depth : Nat) (m : Build .edits β) (w : Workspace) :
    Scene.Evolves w.scene (final (m.run known depth w)).scene :=
  run_invariant (a := .edits) (R := fun w _ w' => Scene.Evolves w.scene w'.scene) known depth
    (fun w => Scene.evolves_refl w.scene) Scene.evolves_trans
    (fun w e => Scene.edit_evolves e w.scene) (fun w _ => Scene.evolves_refl w.scene) nofun
    (fun w _ _ => Scene.evolves_refl w.scene) (fun w _ => Scene.evolves_refl w.scene) m w

/-- A run collects the accepted details of its history, last first. -/
theorem run_scheduled (known : String → Bool) (depth : Nat) (m : Build a β) (w : Workspace) :
    (final (m.run known depth w)).scheduled =
      ((m.events known depth w.toGround).filterMap Event.detail?).reverse ++ w.scheduled := by
  refine run_invariant
    (R := fun w es w' => w'.scheduled = (es.filterMap Event.detail?).reverse ++ w.scheduled)
    known depth ?_ ?_ ?_ ?_ ?_ ?_ ?_ m w
  · intro w; rfl
  · intro w₁ w₂ w₃ es es' h h'
    rw [h', h, List.filterMap_append, List.reverse_append, List.append_assoc]
  · intro w e
    rw [Event.details_pushed]
    rfl
  · intro w move; rfl
  · intro _ w move; rfl
  · intro w d _; rfl
  · intro w n; rfl

/-- The nodes of the history of a run are those that the scene has gained. -/
theorem run_pushed (known : String → Bool) (depth : Nat) (m : Build .edits β) (w : Workspace) :
    (m.events known depth w.toGround).filterMap Event.node? =
      (final (m.run known depth w)).scene.since w.scene.size := by
  -- Two gains in a row make one only because the scene does not shrink, so that comes along.
  refine (run_invariant (a := .edits)
    (R := fun w es w' => Scene.Evolves w.scene w'.scene ∧
      es.filterMap Event.node? = w'.scene.since w.scene.size)
    known depth ?_ ?_ ?_ ?_ nofun ?_ ?_ m w).2
  · intro w; exact ⟨Scene.evolves_refl _, (Scene.since_self _).symm⟩
  · rintro w₁ w₂ w₃ es es' ⟨he, h⟩ ⟨he', h'⟩
    refine ⟨Scene.evolves_trans he he', ?_⟩
    rw [List.filterMap_append, h, h', Scene.since_append_of_evolves he he']
  · intro w e
    have hnodes : ((e.pushes w.scene).map Event.pushed).filterMap Event.node? =
        e.pushes w.scene := by
      cases e <;> rfl
    exact ⟨Scene.edit_evolves e w.scene, by rw [hnodes, Scene.pushes_eq_since]⟩
  · intro w move; exact ⟨Scene.evolves_refl _, (Scene.since_self _).symm⟩
  · intro w d _; exact ⟨Scene.evolves_refl _, (Scene.since_self _).symm⟩
  · intro w n; exact ⟨Scene.evolves_refl _, (Scene.since_self _).symm⟩

end Build

/-! ## The deepest level -/

namespace Build

variable {a : Access} {β : Type} {known : String → Bool} {depth : Nat}

/-- What a body schedules at a level that has another below it. -/
def wishes (known : String → Bool) (m : Build a β) (ground : Ground) : List Detail :=
  (m.events known 0 ground).filterMap Event.detail?

theorem wishes_edit (e : Edit Float32) (next : Except GrowthError e.Answer → Build a β)
    (ground : Ground) : (edit e next).wishes known ground =
      match e.run ground.scene with
      | .ok answer scene => (next (.ok answer)).wishes known { ground with scene }
      | .error (.error err) scene => (next (.error err)).wishes known { ground with scene }
      | .error (.fault _) _ => [] := by
  obtain ⟨scene, stream, notes⟩ := ground
  rw [wishes, events, List.filterMap_append, Event.details_pushed, List.nil_append]
  dsimp only
  cases e.run scene with
  | ok answer scene' => rfl
  | error f scene' => cases f <;> rfl

theorem wishes_detail (rule : String) (place : Point Float32)
    (next : Except GrowthError Unit → Build a β) (ground : Ground) :
    (detail rule place next).wishes known ground =
      if known rule then ⟨rule, place⟩ :: (next (.ok ())).wishes known ground
      else (next (.error (.unknownRule rule))).wishes known ground := by
  rw [wishes, events]
  cases known rule <;> rfl

/-- A body runs as at the top, unless it runs at the deepest level and schedules something. That is
where it ends then. -/
theorem run_cases (known : String → Bool) (depth : Nat) (m : Build a β) (w : Workspace) :
    (m.run known depth w = m.run known 0 w ∧
      (depth = deepest → m.wishes known w.toGround = [])) ∨
    (depth = deepest ∧ m.wishes known w.toGround ≠ [] ∧
      ∃ w', m.run known depth w = .error (.fault .depthOverflow) w') := by
  -- Induction on the program. Only a detail with a known rule looks at the level.
  induction m generalizing w with
  | done value => exact .inl ⟨rfl, fun _ => rfl⟩
  | stop f => exact .inl ⟨rfl, fun _ => rfl⟩
  | edit e next ih =>
    obtain ⟨⟨scene, stream, notes⟩, scheduled⟩ := w
    simp only [wishes_edit, run]
    cases e.run scene with
    | ok answer scene' => exact ih (.ok answer) ⟨⟨scene', stream, notes⟩, scheduled⟩
    | error f scene' =>
      cases f with
      | error err => exact ih (.error err) ⟨⟨scene', stream, notes⟩, scheduled⟩
      | fault f => exact .inl ⟨rfl, fun _ => rfl⟩
  | view next ih => exact ih _ w
  | random move next ih => exact ih _ _
  | replace licence move next ih => exact ih _ _
  | detail rule place next ih =>
    have htop : 0 ≠ deepest := by decide
    rw [wishes_detail, run, run]
    by_cases hknown : known rule
    · by_cases hdeep : depth = deepest
      · exact .inr ⟨hdeep, by simp [hknown], w, by simp [hknown, hdeep]⟩
      · rcases ih (.ok ()) { w with scheduled := ⟨rule, place⟩ :: w.scheduled } with
          ⟨hrun, -⟩ | ⟨hdeep', -⟩
        · refine .inl ⟨?_, fun hdeep' => absurd hdeep' hdeep⟩
          simpa [hknown, hdeep, htop] using hrun
        · exact absurd hdeep' hdeep
    · simpa [hknown] using ih (.error (.unknownRule rule)) w
  | note n next ih => exact ih _

/-- Above the deepest level, a body does not see at which it runs. -/
theorem run_of_lt (h : depth < deepest) (m : Build a β) (w : Workspace) :
    m.run known depth w = m.run known 0 w := by
  rcases run_cases known depth m w with ⟨hrun, -⟩ | ⟨hdeep, -⟩
  · exact hrun
  · exact absurd hdeep (Nat.ne_of_lt h)

end Build

/-! ## Applying a rule -/

namespace Grammar

variable {a : Access} {g : Grammar a} {p : Pending} {ground : Ground}

/-- An application runs the body that its rule selects, or it fails to find one and changes the
stream at most. -/
theorem apply_cases (g : Grammar a) (p : Pending) (ground : Ground) :
    (∃ (r : Rule a) (body : Body a) (stream : Stream), g.rule? p.rule = some r ∧
      r.select ground.stream = (some body, stream) ∧ g.events p ground =
        (body p.depth p.place).events g.contains p.depth { ground with stream } ∧
      g.apply p ground =
        match (body p.depth p.place).run g.contains p.depth ⟨{ ground with stream }, []⟩ with
        | .ok () w => .ok (some w.scheduled.reverse) w.toGround
        | .error f w => .error f w.toGround) ∨
    (g.events p ground = [] ∧
      ((g.rule? p.rule = none ∧ ∃ f, g.apply p ground = .error f ground) ∨
        ∃ stream, g.apply p ground = .ok none { ground with stream })) := by
  obtain ⟨scene, stream, notes⟩ := ground
  simp only [events, apply]
  cases g.rule? p.rule with
  | none => exact .inr ⟨rfl, .inl ⟨rfl, _, rfl⟩⟩
  | some r =>
    simp only
    cases hselect : r.select stream with
    | mk chosen stream' =>
      cases chosen with
      | none => exact .inr ⟨rfl, .inr ⟨stream', rfl⟩⟩
      | some body => exact .inl ⟨r, body, stream', rfl, hselect, rfl, rfl⟩

theorem apply_evolves (g : Grammar) (p : Pending) (ground : Ground) :
    Scene.Evolves ground.scene (final (g.apply p ground)).scene := by
  rcases apply_cases g p ground with
    ⟨-, body, stream, -, -, -, h⟩ | ⟨-, ⟨-, f, h⟩ | ⟨stream, h⟩⟩
  · have hrun := Build.run_evolves g.contains p.depth (body p.depth p.place)
      ⟨{ ground with stream }, []⟩
    rw [h]
    split
    next hw => rwa [hw] at hrun
    next hw => rwa [hw] at hrun
  · rw [h]
    exact Scene.evolves_refl _
  · rw [h]
    exact Scene.evolves_refl _

/-- The nodes of the history of an application are those that the scene has gained. -/
theorem apply_pushed (g : Grammar) (p : Pending) (ground : Ground) :
    (g.events p ground).filterMap Event.node? =
      (final (g.apply p ground)).scene.since ground.scene.size := by
  rcases apply_cases g p ground with
    ⟨-, body, stream, -, -, hevents, h⟩ | ⟨hevents, ⟨-, f, h⟩ | ⟨stream, h⟩⟩
  · have hrun := Build.run_pushed g.contains p.depth (body p.depth p.place)
      ⟨{ ground with stream }, []⟩
    rw [h, hevents, hrun]
    split
    next hw => rw [hw]; rfl
    next hw => rw [hw]; rfl
  · rw [h, hevents]
    exact (Scene.since_self _).symm
  · rw [h, hevents]
    exact (Scene.since_self _).symm

/-- The details that an application answers are the accepted ones of its history, in order. If no
body is chosen there are none. -/
theorem apply_scheduled {chosen : Option (List Detail)} {ground' : Ground}
    (h : g.apply p ground = .ok chosen ground') :
    (g.events p ground).filterMap Event.detail? = chosen.getD [] := by
  rcases apply_cases g p ground with
    ⟨-, body, stream, -, -, hevents, h'⟩ | ⟨hevents, ⟨-, f, h'⟩ | ⟨stream, h'⟩⟩
  · have hrun := Build.run_scheduled g.contains p.depth (body p.depth p.place)
      ⟨{ ground with stream }, []⟩
    rw [h'] at h
    split at h
    next w hw =>
      rw [hw, List.append_nil] at hrun
      cases h
      rw [hevents, Option.getD_some, ← List.reverse_inj, List.reverse_reverse]
      exact hrun.symm
    · cases h
  · rw [h'] at h; cases h
  · rw [h'] at h
    cases h
    rw [hevents]
    rfl

end Grammar

end Espalier
