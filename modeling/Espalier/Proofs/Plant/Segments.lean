import Espalier.Proofs.Grammar.Origin
import Espalier.Proofs.Plant.Nesting

/-!
# Where the segments of a plant are

Every node of a plant is where the rule that created it was applied: the origin of a segment and of
a leaf is at the place of the detail, which is the place of the expansion or the tip of a segment.
Angles only turn a segment about its origin, and what grows later leaves it alone but for children.

Results:
1. `worldPosition_of_parent`: a node is in space at its point of the parent, to the last bit.
2. `Grows.fits`, `Applies.fits`: what a shoot and one application of a rule leave.
3. `expand_segments`: the segments and leaves of an expansion.
-/

namespace Espalier

/-! ## Points of the parent -/

theorem Vec4.one_smul_single (v : Vec4 Float32) : (1 : Float32) • v = v := by
  show (⟨v.x * 1, v.y * 1, v.z * 1, v.w * 1⟩ : Vec4 Float32) = v
  rw [single_mul_one, single_mul_one, single_mul_one, single_mul_one]

namespace Scene

variable {s s' : Scene Float32}

/-- The origin of a node is in space where its parent has the point of that position. -/
theorem worldPosition_of_parent (hf : Forest s) {id : NodeId} {p : Point Float32}
    (hparent : s.parent? id = some p.node) (hposition : (s.node id).transform.position = p.position) :
    s.worldPosition id = s.worldPoint p := by
  have horigin : (s.localMatrix id).wAxis = .ofVec3 p.position 1 := by
    rw [localMatrix, Transform.toMatrix, Mat4.ofScaleRotationPosition, hposition]
  rw [worldPosition, worldMatrix_of_parent hf hparent, worldPoint, Mat4.origin,
    Mat4.transformPoint]
  show ((s.worldMatrix p.node).mulVec (s.localMatrix id).wAxis).toVec3 = _
  rw [horigin, Mat4.mulVec]
  exact congrArg (fun v => Vec4.toVec3 (_ + v)) (Vec4.one_smul_single _)

/-- The nodes of the first scene are what they were, but for children that were appended. Of those
from `mark` on, leaves have got none. -/
structure Undisturbed (mark : Nat) (s s' : Scene Float32) : Prop where
  evolves : Evolves s s'
  node : ∀ id, s.contains id → s'.node id = { s.node id with children := s'.children id }
  leaf : ∀ id, mark ≤ id → s.contains id → ¬s.isStructural id → s'.children id = s.children id

namespace Undisturbed

variable {mark : Nat} {id : NodeId}

theorem refl (s : Scene Float32) : Undisturbed mark s s :=
  ⟨evolves_refl s, fun _ _ => rfl, fun _ _ _ _ => rfl⟩

theorem stays (h : Undisturbed mark s s') : Stays s s' where
  evolves := h.evolves
  rests id hid := ⟨by rw [parent?, h.node id hid]; rfl, by rw [h.node id hid]⟩

theorem trans {s₁ s₂ s₃ : Scene Float32} (h : Undisturbed mark s₁ s₂)
    (h' : Undisturbed mark s₂ s₃) : Undisturbed mark s₁ s₃ where
  evolves := evolves_trans h.evolves h'.evolves
  node id hid := by rw [h'.node id (h.stays.contains hid), h.node id hid]
  leaf id hmark hid hleaf := by
    have hleaf₂ : ¬s₂.isStructural id := by rwa [h.stays.isStructural hid]
    rw [h'.leaf id hmark (h.stays.contains hid) hleaf₂, h.leaf id hmark hid hleaf]

/-- A leaf from `mark` on is not changed at all. -/
theorem leaf_eq (h : Undisturbed mark s s') (hmark : mark ≤ id) (hid : s.contains id)
    (hleaf : ¬s.isStructural id) : s'.node id = s.node id := by
  rw [h.node id hid, h.leaf id hmark hid hleaf]
  rfl

end Undisturbed

/-- A node that is grafted disturbs no other, unless it hangs from a leaf. -/
theorem Grafted.undisturbed {n : Node Float32} (h : Grafted s n s') {mark : Nat} {p : NodeId}
    (hp : n.parent = some p) (hsite : mark ≤ p → s.isStructural p) : Undisturbed mark s s' where
  evolves := h.evolves
  node _ hid := h.node_old hid
  leaf id hmark hid hleaf := by
    rw [h.children_old hid, hp, if_neg]
    rintro heq
    cases heq
    exact hleaf (hsite hmark)

/-- The place is the tip of a segment, one from `mark` on. -/
structure TipOf (s : Scene Float32) (mark : Nat) (place : Point Float32) : Prop where
  contains : s.contains place.node
  new : mark ≤ place.node
  structural : s.isStructural place.node
  tip : (s.node place.node).point? Build.tipName = some place.position

/-- The node is a segment of a length, with its base at a place: its frame has its origin there, and
so it is there in space. -/
structure SegmentAt (s : Scene Float32) (place : Point Float32) (length : Float32) (id : NodeId) :
    Prop where
  points : (s.node id).points = [(Build.baseName, .zero), (Build.tipName, length • .axisY)]
  position : (s.node id).transform.position = place.position
  scale : (s.node id).transform.scale = .splat 1
  held : (s.node id).held = none
  grabbed : (s.node id).grabbed = none
  parent : s.parent? id = some place.node
  worldPosition : s.worldPosition id = s.worldPoint place

/-- The node is a leaf that hangs at a place, neither turned nor scaled. -/
structure LeafAt (s : Scene Float32) (place : Point Float32) (mesh : Mesh) (id : NodeId) :
    Prop where
  kind : (s.node id).kind = .geometry mesh
  transform : (s.node id).transform = ⟨place.position, .identity, .splat 1⟩
  children : s.children id = []
  parent : s.parent? id = some place.node
  worldPosition : s.worldPosition id = s.worldPoint place

end Scene

namespace Profile

open Scene (Undisturbed TipOf SegmentAt LeafAt Forest)

variable {p : Profile} {g : Grammar} {depth mark : Nat} {place first : Point Float32}
  {s s' s₀ : Scene Float32} {scheduled : List Detail} {d : Detail} {ground ground' : Ground}

/-! ## Nodes and places -/

/-- A node that a rule has created at a place: a segment, somehow turned and maybe with children, or
a leaf. -/
inductive Made (p : Profile) (depth : Nat) (place : Point Float32) (s : Scene Float32)
    (id : NodeId) : Prop
  | segment (rotation : Quat Float32) (node : s.node id =
      { Node.segment place (p.segmentLengthAt depth) rotation with children := s.children id })
  | leaf (node : s.node id = .leaf place p.leafBlade)

theorem Made.undisturbed {id : NodeId} (h : p.Made depth place s id)
    (hs : Undisturbed mark s s') (hmark : mark ≤ id) (hid : s.contains id) :
    p.Made depth place s' id := by
  cases h with
  | segment rotation node => exact .segment rotation (by rw [hs.node id hid, node])
  | leaf node =>
    have hleaf : ¬s.isStructural id := by simp [Scene.isStructural, node, Node.leaf, Node.isolated,
      Node.isStructural]
    exact .leaf (by rw [hs.leaf_eq hmark hid hleaf, node])

theorem Made.segmentAt {id : NodeId} (h : p.Made depth place s id) (hf : Forest s)
    (hid : s.isStructural id) : SegmentAt s place (p.segmentLengthAt depth) id := by
  cases h with
  | segment rotation node =>
    have hparent : s.parent? id = some place.node := by rw [Scene.parent?, node]; rfl
    have hposition : (s.node id).transform.position = place.position := by rw [node]; rfl
    exact ⟨by rw [node]; rfl, hposition, by rw [node]; rfl, by rw [node]; rfl, by rw [node]; rfl,
      hparent, Scene.worldPosition_of_parent hf hparent hposition⟩
  | leaf node => simp [Scene.isStructural, node, Node.leaf, Node.isolated, Node.isStructural] at hid

theorem Made.leafAt {id : NodeId} (h : p.Made depth place s id) (hf : Forest s)
    (hcontains : s.contains id) (hid : ¬s.isStructural id) :
    LeafAt s place p.leafBlade id := by
  cases h with
  | segment rotation node =>
    simp [Scene.isStructural, hcontains, node, Node.segment, Node.isolated, Node.isStructural] at hid
  | leaf node =>
    have hparent : s.parent? id = some place.node := by rw [Scene.parent?, node]; rfl
    have hposition : (s.node id).transform.position = place.position := by rw [node]; rfl
    exact ⟨by rw [node]; rfl, by rw [node]; rfl, by rw [Scene.children, node]; rfl, hparent,
      Scene.worldPosition_of_parent hf hparent hposition⟩

/-- A place of an expansion: the one that it began at, or a tip. -/
inductive Spot (first : Point Float32) (mark : Nat) (s : Scene Float32) : Point Float32 → Prop
  | first (contains : s.contains first.node) (old : first.node < mark) : Spot first mark s first
  | tip {place : Point Float32} (tip : TipOf s mark place) : Spot first mark s place

namespace Spot

theorem contains (h : Spot first mark s place) : s.contains place.node := by
  cases h with
  | first hcontains _ => exact hcontains
  | tip htip => exact htip.contains

theorem structural (h : Spot first mark s place) (hmark : mark ≤ place.node) :
    s.isStructural place.node := by
  cases h with
  | first _ hold => exact absurd hmark (Nat.not_le.mpr hold)
  | tip htip => exact htip.structural

theorem undisturbed (h : Spot first mark s place) (hs : Undisturbed mark s s') :
    Spot first mark s' place := by
  cases h with
  | first hcontains hold => exact .first (hs.stays.contains hcontains) hold
  | tip htip =>
    refine .tip ⟨hs.stays.contains htip.contains, htip.new, ?_, ?_⟩
    · rw [hs.stays.isStructural htip.contains]
      exact htip.structural
    · rw [hs.node _ htip.contains]
      exact htip.tip

end Spot

/-- A body has grown so far at a place: it has disturbed no node of the scene that it began with,
its own nodes are there, and what it has scheduled is to be run at spots. -/
structure Fits (p : Profile) (depth : Nat) (place first : Point Float32) (mark : Nat)
    (s₀ s : Scene Float32) (scheduled : List Detail) : Prop where
  undisturbed : Undisturbed mark s₀ s
  nodes : ∀ id ∈ s.since s₀.size, p.Made depth place s id
  details : ∀ d ∈ scheduled, d.rule ∈ ruleNames ∧ Spot first mark s d.place

namespace Fits

/-- A body has grown one node more. -/
theorem graft {n : Node Float32} (h : p.Fits depth place first mark s₀ s scheduled)
    (hs : Scene.Grafted s n s') (hparent : n.parent = some place.node)
    (hmade : p.Made depth place s' s.size) (hmark : mark ≤ s₀.size)
    (hplace : Spot first mark s place) : p.Fits depth place first mark s₀ s' scheduled := by
  have hnext : Undisturbed mark s s' := hs.undisturbed hparent hplace.structural
  refine ⟨h.undisturbed.trans hnext, fun id hid => ?_, fun d hd => ?_⟩
  · obtain ⟨hge, hlt⟩ := Scene.mem_since.mp hid
    rcases Nat.lt_succ_iff_lt_or_eq.mp (hs.size ▸ hlt) with hold | rfl
    · exact (h.nodes id (Scene.mem_since.mpr ⟨hge, hold⟩)).undisturbed hnext
        (Nat.le_trans hmark hge) (Scene.contains_iff.mpr hold)
    · exact hmade
  · obtain ⟨hrule, hspot⟩ := h.details d hd
    exact ⟨hrule, hspot.undisturbed hnext⟩

theorem shoot {shoot : Shoot} {w w' : Workspace}
    (h : p.Fits depth place first mark s₀ w.scene w.scheduled)
    (hgrows : shoot.Grows p depth place w w') (hrules : shoot.rules ⊆ ruleNames)
    (hmark : mark ≤ s₀.size) (hplace : Spot first mark w.scene place) :
    p.Fits depth place first mark s₀ w'.scene w'.scheduled := by
  cases hgrows with
  | @segment _ s' rotation rules node =>
    have hnode := node.node_self
    have hchildren : s'.children w.scene.size = [] := congrArg Node.children hnode
    have hmade : p.Made depth place s' w.scene.size :=
      .segment rotation (by rw [hnode, hchildren]; rfl)
    have hnext := h.graft node rfl hmade hmark hplace
    have htip : TipOf s' mark ⟨w.scene.size, segmentTip (p.segmentLengthAt depth)⟩ := by
      refine ⟨node.contains, ?_, ?_, ?_⟩
      · exact Nat.le_trans hmark (Scene.evolves_extends h.undisturbed.evolves).size
      · exact node.isStructural
      · rw [hnode]
        rfl
    refine ⟨hnext.undisturbed, hnext.nodes, List.forall_mem_append.mpr ⟨?_, hnext.details⟩⟩
    intro d hd
    obtain ⟨rule, hrule, rfl⟩ := List.mem_map.mp (List.mem_reverse.mp hd)
    exact ⟨hrules hrule, .tip htip⟩
  | leaf node => exact h.graft node rfl (.leaf node.node_self) hmark hplace
  | bud =>
    refine ⟨h.undisturbed, h.nodes, List.forall_mem_cons.mpr ⟨⟨?_, hplace⟩, h.details⟩⟩
    exact (by decide : "leaf" ∈ ruleNames)

theorem shoots {shoots : List Shoot} {w w' : Workspace}
    (h : p.Fits depth place first mark s₀ w.scene w.scheduled)
    (hgrows : Shoot.GrowAll p depth place shoots w w')
    (hrules : ∀ shoot ∈ shoots, shoot.rules ⊆ ruleNames) (hmark : mark ≤ s₀.size)
    (hplace : Spot first mark s₀ place) :
    p.Fits depth place first mark s₀ w'.scene w'.scheduled := by
  induction hgrows with
  | nil => exact h
  | cons hfirst _ ih =>
    obtain ⟨hrule, hrules⟩ := List.forall_mem_cons.mp hrules
    exact ih (h.shoot hfirst hrule hmark (hplace.undisturbed h.undisturbed)) hrules

end Fits

/-- One application of a rule at a spot. -/
theorem Applies.fits {chosen : Option (List Detail)} (h : p.Applies depth d ground chosen ground')
    (hmark : mark ≤ ground.scene.size) (hplace : Spot first mark ground.scene d.place) :
    p.Fits depth d.place first mark ground.scene ground'.scene (chosen.getD []) := by
  have hnothing : p.Fits depth d.place first mark ground.scene ground.scene [] :=
    ⟨.refl _, by simp [Scene.since_self], nofun⟩
  cases h with
  | skipped _ => exact hnothing
  | grown hchosen hgrows =>
    obtain ⟨hrules, -⟩ := choose_shoots hchosen
    have hfits := hnothing.shoots hgrows hrules hmark hplace
    exact ⟨hfits.undisturbed, hfits.nodes, fun d hd => hfits.details d (List.mem_reverse.mp hd)⟩

/-! ## Expansion -/

/-- Every level of a plant runs its rules at spots and disturbs no node. -/
theorem sustains_spots (hg : p.grammar = .ok g) (first : Point Float32) (mark : Nat) :
    g.Sustains (Undisturbed mark) (fun s => Forest s ∧ mark ≤ s.size)
      (fun _ s d => d.rule ∈ ruleNames ∧ Spot first mark s d.place) fun _ _ _ => True where
  refl := .refl
  trans := .trans
  apply {depth d ground} hdepth hlaw hd := by
    obtain ⟨hf, hmark⟩ := hlaw
    obtain ⟨hrule, hspot⟩ := hd
    obtain ⟨chosen, ground', happly, happlies⟩ := apply_grows hg hrule hdepth hf hspot.contains
    have hfits := happlies.fits hmark hspot
    have hevolves := hfits.undisturbed.evolves
    exact ⟨chosen, ground', happly, ⟨Scene.evolves_forest hevolves hf,
      Nat.le_trans hmark (Scene.evolves_extends hevolves).size⟩, hfits.undisturbed, hfits.details,
      fun _ _ => trivial⟩
  runs_stays _ hs hd := ⟨hd.1, hd.2.undisturbed hs⟩
  made_stays _ _ _ := trivial

/-- Growth of an accepted plant at any point of a scene ends well. All that it creates was created by
rules, each applied at a depth and at a place, which is that of the expansion or the tip of a new
segment. In the end the structural nodes of an application are segments of the length of its depth
with their bases at its place, and the other nodes are leaves there. -/
theorem expand_segments (hg : p.grammar = .ok g) (es : List (Edit Float32)) (x : Expansion)
    (hstart : x.start ∈ ruleNames) (hdepth : x.depth.toNat < deepest)
    (hplace : ((Scene.empty : Scene Float32).after es).contains x.first.place.node)
    (stream : Stream) (notes : List Note) :
    let ground : Ground := ⟨(Scene.empty : Scene Float32).after es, stream, notes⟩
    ∃ report ground', g.expand x ground = .ok report ground' ∧
      (∀ id ∈ report.created, ∃ depth d before after, depth ≤ x.depth.toNat ∧
        g.Applies x.first ground depth d before after ∧
        id ∈ after.scene.since before.scene.size) ∧
      ∀ depth d before after, depth ≤ x.depth.toNat →
        g.Applies x.first ground depth d before after →
        Spot x.first.place ground.scene.size ground'.scene d.place ∧
        ∀ id ∈ after.scene.since before.scene.size,
          (ground'.scene.isStructural id →
            SegmentAt ground'.scene d.place (p.segmentLengthAt depth) id) ∧
          (¬ground'.scene.isStructural id → LeafAt ground'.scene d.place p.leafBlade id) := by
  intro ground
  have hf : Forest ground.scene := Scene.after_forest es
  have hsustains := sustains_spots hg x.first.place ground.scene.size
  have hfirst : x.first.rule ∈ ruleNames ∧
      Spot x.first.place ground.scene.size ground.scene x.first.place :=
    ⟨hstart, .first hplace (Scene.contains_iff.mp hplace)⟩
  obtain ⟨ls, ground', hlevels, ⟨hf', -⟩, -⟩ :=
    hsustains.levels ⟨hf, Nat.le_refl _⟩ hfirst hdepth
  refine ⟨_, ground', Grammar.expand_eq_ok.mpr ⟨ls, hlevels, rfl⟩, fun id hid => ?_,
    fun depth d before after hle happlies => ?_⟩
  · obtain ⟨depth, d, before, after, hlt, happlies, hmem⟩ := Grammar.levels_origin hlevels hid
    exact ⟨depth, d, before, after, Nat.le_of_lt_succ hlt, happlies, hmem⟩
  · obtain ⟨⟨hf₁, hmark⟩, ⟨hrule, hspot⟩, -, hlater⟩ := hsustains.applies ⟨hf, Nat.le_refl _⟩ hfirst
      happlies (Nat.lt_succ_of_le hle) hdepth hlevels
    obtain ⟨-, chosen, happly⟩ := happlies
    obtain ⟨_, _, happly', hgrown⟩ := apply_grows hg hrule
      (Nat.lt_of_le_of_lt hle hdepth) hf₁ hspot.contains
    rw [happly] at happly'
    cases happly'
    have hfits := hgrown.fits hmark hspot
    refine ⟨(hspot.undisturbed hfits.undisturbed).undisturbed hlater, fun id hid => ?_⟩
    obtain ⟨hge, hlt⟩ := Scene.mem_since.mp hid
    have hid₁ : after.scene.contains id := Scene.contains_iff.mpr hlt
    have hmade := (hfits.nodes id hid).undisturbed hlater (Nat.le_trans hmark hge) hid₁
    exact ⟨hmade.segmentAt hf', hmade.leafAt hf' (hlater.stays.contains hid₁)⟩

/-- A shrub whose segments are infinitely long, backwards, and tilted by no angle in particular. -/
def boundless : Profile := { shrub with segmentLength := -1 / 0, spread := 0 / 0 }

theorem expand_segments_boundless : ∃ g report ground',
    boundless.grammar = .ok g ∧ "branch" ∈ ruleNames ∧ (3 : UInt32).toNat < deepest ∧
    g.expand ⟨"branch", 3, some (.origin 1)⟩ ⟨Scene.empty.after stake, .ofSeed 5, []⟩ =
      .ok report ground' ∧
    ∀ id ∈ report.created, ∃ depth place, depth ≤ 3 ∧
      Spot (.origin 1) 2 ground'.scene place ∧
      (ground'.scene.isStructural id →
        SegmentAt ground'.scene place (boundless.segmentLengthAt depth) id) ∧
      (¬ground'.scene.isStructural id → LeafAt ground'.scene place boundless.leafBlade id) := by
  obtain ⟨report, ground', hexpand, horigin, hplaced⟩ :=
    expand_segments (p := boundless) rfl stake ⟨"branch", 3, some (.origin 1)⟩ (by decide)
      (by decide) (by decide +kernel) (.ofSeed 5) []
  refine ⟨_, report, ground', rfl, by decide, by decide, hexpand, fun id hid => ?_⟩
  obtain ⟨depth, d, before, after, hdepth, happlies, hmem⟩ := horigin id hid
  obtain ⟨hspot, hnodes⟩ := hplaced depth d before after hdepth happlies
  exact ⟨depth, d.place, hdepth, hspot, hnodes id hmem⟩

end Profile

end Espalier
