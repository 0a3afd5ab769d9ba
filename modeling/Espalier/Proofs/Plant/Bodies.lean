import Espalier.Plant.Grammar
import Espalier.Proofs.Grammar.Definitions
import Espalier.Proofs.Grammar.Segment

/-!
# What the bodies of the plant grammar do

A body of the plant grammar is a list of shoots, all at its place: segments with rules for their
tips, a leaf, or a bud, which leaves a rule for the place itself. What a body draws decides about
angles only: the nodes, but for their rotations, the details and the number of draws are those of
the shoots. No edit is refused because of a number, so infinities and NaNs do no harm either.

Results:
1. `trunk_grows`, `extend_grows`, `fork_grows`, `bud_grows`, `sideBranch_grows`, `leaf_grows`: the
   shoots of each body.
2. `grammar_tends`: bodies that grow shoots tend, and so does the plant grammar.
-/

namespace Espalier

/-! ## Shoots -/

/-- What a body grows at its place, but for measures. -/
inductive Shoot where
  /-- A segment, with rules for its tip. -/
  | segment (rules : List String)
  | leaf
  /-- No node, but a leaf rule for the place itself. -/
  | bud
deriving DecidableEq

namespace Shoot

/-- The rules that the shoot schedules. -/
def rules : Shoot → List String
  | segment rules => rules
  | leaf => []
  | bud => ["leaf"]

/-- A shoot grows at a place, with the measures of a profile at a depth. A segment draws two
numbers: one that tilts it and one that twists it. -/
inductive Grows (p : Profile) (depth : Nat) (place : Point Float32) :
    Shoot → Workspace → Workspace → Prop
  | segment {w : Workspace} {s' : Scene Float32} {rotation : Quat Float32} {rules : List String}
      (node : Scene.Grafted w.scene (.segment place (p.segmentLengthAt depth) rotation) s') :
      Grows p depth place (.segment rules) w
        { scene := s'
          stream := w.stream.advance.advance
          notes := w.notes
          scheduled := (rules.map
            (Detail.mk · ⟨w.scene.size, segmentTip (p.segmentLengthAt depth)⟩)).reverse ++
              w.scheduled }
  | leaf {w : Workspace} {s' : Scene Float32}
      (node : Scene.Grafted w.scene (.leaf place p.leafBlade) s') :
      Grows p depth place .leaf w (w.withScene s')
  | bud {w : Workspace} :
      Grows p depth place .bud w { w with scheduled := ⟨"leaf", place⟩ :: w.scheduled }

/-- Shoots grow at a place, one after the other. -/
inductive GrowAll (p : Profile) (depth : Nat) (place : Point Float32) :
    List Shoot → Workspace → Workspace → Prop
  | nil {w : Workspace} : GrowAll p depth place [] w w
  | cons {shoot : Shoot} {shoots : List Shoot} {w w₁ w' : Workspace} :
      Grows p depth place shoot w w₁ → GrowAll p depth place shoots w₁ w' →
        GrowAll p depth place (shoot :: shoots) w w'

variable {p : Profile} {depth : Nat} {place : Point Float32} {shoot : Shoot}
  {shoots : List Shoot} {w w' : Workspace}

theorem Grows.all (h : Grows p depth place shoot w w') : GrowAll p depth place [shoot] w w' :=
  .cons h .nil

theorem Grows.stays (h : Grows p depth place shoot w w') : Scene.Stays w.scene w'.scene := by
  cases h with
  | segment node => exact node.stays
  | leaf node => exact node.stays
  | bud => exact Scene.stays_refl _

theorem GrowAll.stays (h : GrowAll p depth place shoots w w') :
    Scene.Stays w.scene w'.scene := by
  induction h with
  | nil => exact Scene.stays_refl _
  | cons hfirst _ ih => exact Scene.stays_trans hfirst.stays ih

theorem GrowAll.append {shoots' : List Shoot} {w₁ : Workspace}
    (h : GrowAll p depth place shoots w w₁) (h' : GrowAll p depth place shoots' w₁ w') :
    GrowAll p depth place (shoots ++ shoots') w w' := by
  induction h with
  | nil => exact h'
  | cons hfirst _ ih => exact .cons hfirst (ih h')

variable {known : String → Bool}

/-- A shoot at a point of a scene that hangs from its root leaves such a scene, and what it
schedules can be run there. -/
theorem Grows.ready (h : Grows p depth place shoot w w') (hknown : ∀ rule ∈ shoot.rules, known rule)
    (hw : Ready known w.scene w.scheduled) (hplace : w.scene.contains place.node) :
    Ready known w'.scene w'.scheduled := by
  cases h with
  | segment node =>
    have hplanted := hw.planted.grafted hplace node rfl
    refine Ready.append ⟨hplanted, ?_, ?_⟩ (hw.later node.stays hplanted)
    · simpa [rules] using hknown
    · simpa using fun _ _ => node.contains
  | leaf node => exact hw.later node.stays (hw.planted.grafted hplace node rfl)
  | bud => exact .cons (hknown _ List.mem_cons_self) hplace hw

theorem GrowAll.ready (h : GrowAll p depth place shoots w w')
    (hknown : ∀ shoot ∈ shoots, ∀ rule ∈ shoot.rules, known rule)
    (hw : Ready known w.scene w.scheduled) (hplace : w.scene.contains place.node) :
    Ready known w'.scene w'.scheduled := by
  induction h with
  | nil => exact hw
  | cons hfirst _ ih =>
    obtain ⟨hshoot, hshoots⟩ := List.forall_mem_cons.mp hknown
    exact ih hshoots (hfirst.ready hshoot hw hplace) (hfirst.stays.contains hplace)

end Shoot

/-- The body grows the shoots, at any point of a scene whose links make a forest. The depth that it
is told decides about lengths; the level that it runs at only has to leave room for another. -/
def Body.Grows (known : String → Bool) (p : Profile) (body : Body) (shoots : List Shoot) : Prop :=
  ∀ depth level place w, level < deepest → Scene.Forest w.scene → w.scene.contains place.node →
    Ends ((body depth place).run known level w) fun _ w' =>
      Shoot.GrowAll p depth place shoots w w'

/-- A body that grows shoots with known rules tends. -/
theorem Body.Grows.tends {known : String → Bool} {p : Profile} {body : Body} {shoots : List Shoot}
    (h : body.Grows known p shoots)
    (hknown : ∀ shoot ∈ shoots, ∀ rule ∈ shoot.rules, known rule) : body.Tends known := by
  intro depth level place w hlevel hw hplace
  exact (h depth level place w hlevel hw.planted.forest hplace).mono fun _ _ hgrow =>
    ⟨hgrow.ready hknown hw hplace, hgrow.stays, trivial⟩

namespace Profile

variable {known : String → Bool} {depth level : Nat} {w : Workspace} {place : Point Float32}

/-! ## Bodies -/

/-- The rules that the bodies schedule. -/
structure Knows (known : String → Bool) : Prop where
  branch : known "branch"
  maybeBranch : known "maybeBranch"
  leaf : known "leaf"

variable (p : Profile)

/-- A body goes on from the tip of a segment. -/
theorem ends_sprout {β : Type} (hf : Scene.Forest w.scene) (hplace : w.scene.contains place.node)
    (tilt : Float32) {f : Point Float32 → Build .edits β} {Q : β → Workspace → Prop}
    (hrest : ∀ s' rotation,
      Scene.Grafted w.scene (.segment place (p.segmentLengthAt depth) rotation) s' →
        Ends ((f ⟨w.scene.size, segmentTip (p.segmentLengthAt depth)⟩).run known level
          (w.drawn.withScene s')) Q) :
    Ends ((p.sprout depth place tilt >>= f).run known level w) Q := by
  refine Build.ends_bind (Build.ends_draw (Build.segment_grafts (w := w.drawn) hf hplace _ _ _))
    fun tip w' hw' => ?_
  obtain ⟨rfl, s', rotation, rfl, node⟩ := hw'
  exact hrest s' rotation node

theorem trunk_grows (hknown : Knows known) :
    Body.Grows known p p.trunk [.segment ["branch", "maybeBranch"]] := by
  intro depth level place w hlevel hf hplace
  refine Build.ends_draw <| ends_sprout p (w := w.drawn) hf hplace _ fun s' _ node => ?_
  refine Build.ends_schedule hlevel hknown.branch ?_
  rw [Build.run_schedule hlevel hknown.maybeBranch]
  exact ⟨(), _, rfl, (Shoot.Grows.segment (w := w) node).all⟩

theorem extend_grows (hknown : Knows known) :
    Body.Grows known p p.extend [.segment ["branch", "maybeBranch", "leaf"]] := by
  intro depth level place w hlevel hf hplace
  refine Build.ends_draw <| ends_sprout p (w := w.drawn) hf hplace _ fun s' _ node => ?_
  refine Build.ends_schedule hlevel hknown.branch <|
    Build.ends_schedule hlevel hknown.maybeBranch ?_
  rw [Build.run_schedule hlevel hknown.leaf]
  exact ⟨(), _, rfl, (Shoot.Grows.segment (w := w) node).all⟩

theorem forkSide_grows (hknown : Knows known) (side : Float32) :
    Body.Grows known p (p.forkSide side) [.segment ["branch", "leaf"]] := by
  intro depth level place w hlevel hf hplace
  refine Build.ends_drawWithin (by decide +kernel) <|
    ends_sprout p (w := w.drawn) hf hplace _ fun s' _ node => ?_
  refine Build.ends_schedule hlevel hknown.branch ?_
  rw [Build.run_schedule hlevel hknown.leaf]
  exact ⟨(), _, rfl, (Shoot.Grows.segment (w := w) node).all⟩

theorem fork_grows (hknown : Knows known) :
    Body.Grows known p p.fork [.segment ["branch", "leaf"], .segment ["branch", "leaf"]] := by
  intro depth level place w hlevel hf hplace
  refine Build.ends_bind (forkSide_grows p hknown _ depth level place w hlevel hf hplace)
    fun _ w₁ hfirst => ?_
  have hstays := hfirst.stays
  refine (forkSide_grows p hknown _ depth level place w₁ hlevel
    (Scene.evolves_forest hstays.evolves hf) (hstays.contains hplace)).mono fun _ w₂ hsecond => ?_
  exact hfirst.append hsecond

theorem bud_grows (hknown : Knows known) : Body.Grows known p bud [.bud] := by
  intro depth level place w hlevel _ _
  rw [bud, Build.run_schedule hlevel hknown.leaf]
  exact ⟨(), _, rfl, Shoot.Grows.bud.all⟩

theorem sideBranch_grows (hknown : Knows known) :
    Body.Grows known p p.sideBranch [.segment ["branch"]] := by
  intro depth level place w hlevel hf hplace
  refine Build.ends_drawWithin (by decide +kernel) <|
    ends_sprout p (w := w.drawn) hf hplace _ fun s' _ node => ?_
  rw [Build.run_schedule hlevel hknown.branch]
  exact ⟨(), _, rfl, (Shoot.Grows.segment (w := w) node).all⟩

theorem leaf_grows : Body.Grows known p p.leaf [.leaf] := by
  intro depth level place w _ hf hplace
  obtain ⟨s', hhang, node⟩ := Scene.hang_ok hf hplace p.leafBlade
  exact Build.ends_perform hhang (Build.ends_pure (Shoot.Grows.leaf node).all)

/-! ## The grammar -/

variable {p} {g : Grammar}

theorem grammar_contains (h : p.grammar = .ok g) {name : String}
    (hname : name ∈ ["trunk", "branch", "branch", "branch", "maybeBranch", "leaf"]) :
    g.contains name := by
  obtain ⟨d, hd, rfl⟩ : ∃ d ∈ p.definitions, d.name = name := List.mem_map.mp hname
  exact Grammar.ofDefinitions_contains h d hd

theorem grammar_knows (h : p.grammar = .ok g) : Knows g.contains :=
  ⟨grammar_contains h (by decide), grammar_contains h (by decide), grammar_contains h (by decide)⟩

/-- The grammar of a plant, if it is accepted, tends its scene, whatever the numbers of the
profile are. -/
theorem grammar_tends (h : p.grammar = .ok g) : g.Tends := by
  have hknown := grammar_knows h
  refine Grammar.ofDefinitions_tends h ?_
  simp only [definitions, List.forall_mem_cons]
  have htends : ∀ {body : Body} {shoots : List Shoot}, body.Grows g.contains p shoots →
      (∀ shoot ∈ shoots, shoot.rules ⊆ ["branch", "maybeBranch", "leaf"]) →
      body.Tends g.contains := by
    intro body shoots hgrows hrules
    refine hgrows.tends fun shoot hshoot rule hrule => ?_
    have hmem := hrules shoot hshoot hrule
    simp only [List.mem_cons, List.not_mem_nil, or_false] at hmem
    rcases hmem with rfl | rfl | rfl
    · exact hknown.branch
    · exact hknown.maybeBranch
    · exact hknown.leaf
  exact ⟨htends (trunk_grows p hknown) (by decide), htends (extend_grows p hknown) (by decide),
    htends (fork_grows p hknown) (by decide), htends (bud_grows p hknown) (by decide),
    htends (sideBranch_grows p hknown) (by decide), htends (leaf_grows p) (by decide),
    fun _ hd => (nomatch hd)⟩

end Profile

end Espalier
