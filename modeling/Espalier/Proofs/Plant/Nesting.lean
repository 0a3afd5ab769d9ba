import Espalier.Proofs.Plant.Application

/-!
# How deep a plant is nested

The depth of a detail and the nesting of the node it will attach to go together. A segment is one
node deeper than its place and its rules are one level deeper, so a rule that grows segments always
runs as many nodes below the place of the expansion as its level says. A bud leaves its leaf one
level deeper at the same place, so a leaf can be nested less, but never more.

Results:
1. `Nests.shoot`, `Applies.nests`: what a shoot and one application of a rule preserve.
2. `sustains_nesting`: what every level preserves.
3. `expand_nesting`: how many nodes there are above the nodes that an expansion creates.
-/

namespace Espalier

namespace Scene

variable {α : Type} [Scalar α] {s s' : Scene α} {q id c : NodeId} {n k : Nat}

/-- A node is `q` or below it, with `n` nodes above it in all. -/
structure Under (s : Scene α) (q id : NodeId) (n : Nat) : Prop where
  contains : s.contains id
  below : q ∈ id :: s.ancestors id
  nesting : (s.ancestors id).length = n

theorem Under.stays (h : Under s q id n) (hs : Stays s s') (hf : Forest s) : Under s' q id n where
  contains := hs.contains h.contains
  below := by rw [hs.ancestors hf h.contains]; exact h.below
  nesting := by rw [hs.ancestors hf h.contains]; exact h.nesting

theorem Under.child (h : Under s q id n) (hf : Forest s) (hc : s.parent? c = some id) :
    Under s q c (n + 1) where
  contains := contains_of_parent hc
  below := by
    rw [hf.ancestors_of_parent hc]
    exact List.mem_cons_of_mem _ h.below
  nesting := by rw [hf.ancestors_of_parent hc, List.length_cons, h.nesting]

theorem Under.above_child (h : Under s q id n) (hf : Forest s) (hc : s.parent? c = some id) :
    q ∈ s.ancestors c := by
  rw [hf.ancestors_of_parent hc]
  exact h.below

/-- A node below `q` has at most `k` nodes above it, and exactly `k` if it is structural. -/
structure Nested (s : Scene α) (q : NodeId) (k : Nat) (id : NodeId) : Prop where
  contains : s.contains id
  below : q ∈ s.ancestors id
  nesting : (s.ancestors id).length ≤ k
  structural : s.isStructural id → (s.ancestors id).length = k

theorem Nested.stays (h : Nested s q k id) (hs : Stays s s') (hf : Forest s) :
    Nested s' q k id where
  contains := hs.contains h.contains
  below := by rw [hs.ancestors hf h.contains]; exact h.below
  nesting := by rw [hs.ancestors hf h.contains]; exact h.nesting
  structural := by
    rw [hs.ancestors hf h.contains, hs.isStructural h.contains]
    exact h.structural

end Scene

namespace Profile

open Scene (Under Nested Grafted Forest Stays)

variable {p : Profile} {g : Grammar} {s s' : Scene Float32} {q base : NodeId}
  {n k mark depth : Nat} {place : Point Float32} {d : Detail} {ds new : List Detail}
  {ground ground' : Ground}

/-- A detail is to be run at `q` or below it, with `k` nodes above; for a leaf it may be fewer. -/
structure Sited (s : Scene Float32) (q : NodeId) (k : Nat) (d : Detail) : Prop where
  rule : d.rule ∈ ruleNames
  under : ∃ n ≤ k, Under s q d.place.node n ∧ (d.rule ≠ "leaf" → n = k)

theorem Sited.stays (h : Sited s q k d) (hs : Stays s s') (hf : Forest s) : Sited s' q k d where
  rule := h.rule
  under := by
    obtain ⟨n, hle, hunder, hexact⟩ := h.under
    exact ⟨n, hle, hunder.stays hs hf, hexact⟩

/-- A body has grown so far: its nodes, which are those from `mark` on, are nested one deeper than
`k`, and so are the places of what it has scheduled. -/
structure Nests (q : NodeId) (k mark : Nat) (s : Scene Float32) (scheduled : List Detail) :
    Prop where
  forest : Forest s
  nodes : ∀ id, mark ≤ id → s.contains id → Nested s q (k + 1) id
  details : ∀ d ∈ scheduled, Sited s q (k + 1) d

namespace Nests

theorem append (h : Nests q k mark s ds) (hnew : ∀ d ∈ new, Sited s q (k + 1) d) :
    Nests q k mark s (new ++ ds) :=
  ⟨h.forest, h.nodes, List.forall_mem_append.mpr ⟨hnew, h.details⟩⟩

/-- A node is put below one that has at most `k` nodes above it, and exactly `k` if the new one is
structural. -/
theorem graft {new : Node Float32} (h : Nests q k mark s ds) (hs : Grafted s new s')
    (hparent : new.parent = some base) (hunder : Under s q base n) (hle : n ≤ k)
    (hexact : new.isStructural → n = k) : Nests q k mark s' ds where
  forest := Scene.evolves_forest hs.evolves h.forest
  nodes id hmark hid := by
    have hf : Forest s' := Scene.evolves_forest hs.evolves h.forest
    have hlt : id < s.size + 1 := hs.size ▸ Scene.contains_iff.mp hid
    rcases Nat.lt_succ_iff_lt_or_eq.mp hlt with hold | rfl
    · exact (h.nodes id hmark (Scene.contains_iff.mpr hold)).stays hs.stays h.forest
    · have hunder' : Under s' q base n := hunder.stays hs.stays h.forest
      have hchild : s'.parent? s.size = some base := hs.parent.trans hparent
      have hnesting := (hunder'.child hf hchild).nesting
      refine ⟨hs.contains, hunder'.above_child hf hchild, ?_, fun hstructural => ?_⟩
      · rw [hnesting]
        exact Nat.succ_le_succ hle
      · rw [hnesting, hexact (hs.isStructural ▸ hstructural)]
  details d hd := (h.details d hd).stays hs.stays h.forest

/-- A shoot grows at a node that has at most `k` nodes above it, and exactly `k` if the shoot is no
leaf. -/
theorem shoot {shoot : Shoot} {w w' : Workspace} (h : Nests q k mark w.scene w.scheduled)
    (hgrows : shoot.Grows p depth place w w') (hrules : shoot.rules ⊆ ruleNames)
    (hunder : Under w.scene q place.node n) (hle : n ≤ k) (hexact : shoot ≠ .leaf → n = k) :
    Nests q k mark w'.scene w'.scheduled := by
  cases hgrows with
  | @segment _ s' rotation rules node =>
    have hn : n = k := hexact nofun
    have hnext := h.graft node rfl hunder hle fun _ => hn
    refine hnext.append fun d hd => ?_
    obtain ⟨rule, hrule, rfl⟩ := List.mem_map.mp (List.mem_reverse.mp hd)
    have htip : Under s' q w.scene.size (n + 1) :=
      (hunder.stays node.stays h.forest).child hnext.forest (node.parent.trans rfl)
    exact ⟨hrules hrule, n + 1, Nat.succ_le_succ hle, htip, fun _ => congrArg Nat.succ hn⟩
  | leaf node => exact h.graft node rfl hunder hle nofun
  | bud =>
    have hsited : Sited w.scene q (k + 1) ⟨"leaf", place⟩ :=
      ⟨(by decide : "leaf" ∈ ruleNames), n, Nat.le_succ_of_le hle, hunder,
        fun hne => absurd rfl hne⟩
    exact ⟨h.forest, h.nodes, List.forall_mem_cons.mpr ⟨hsited, h.details⟩⟩

theorem shoots {shoots : List Shoot} {w w' : Workspace} (h : Nests q k mark w.scene w.scheduled)
    (hgrows : Shoot.GrowAll p depth place shoots w w')
    (hrules : ∀ shoot ∈ shoots, shoot.rules ⊆ ruleNames)
    (hunder : Under w.scene q place.node n) (hle : n ≤ k)
    (hexact : ∀ shoot ∈ shoots, shoot ≠ .leaf → n = k) :
    Nests q k mark w'.scene w'.scheduled := by
  induction hgrows with
  | nil => exact h
  | cons hfirst _ ih =>
    obtain ⟨hrule, hrules⟩ := List.forall_mem_cons.mp hrules
    obtain ⟨hshoot, hshoots⟩ := List.forall_mem_cons.mp hexact
    exact ih (h.shoot hfirst hrule hunder hle hshoot) hrules
      (hunder.stays hfirst.stays h.forest) hshoots

end Nests

/-! ## Applications and levels -/

/-- One application of a rule at a sited detail. -/
theorem Applies.nests {chosen : Option (List Detail)} (h : p.Applies depth d ground chosen ground')
    (hd : Sited ground.scene q k d) (hnests : Nests q k mark ground.scene []) :
    Nests q k mark ground'.scene (chosen.getD []) := by
  cases h with
  | skipped _ => exact hnests
  | grown hchosen hgrows =>
    obtain ⟨hrules, hleaf⟩ := choose_shoots hchosen
    obtain ⟨n, hle, hunder, hexact⟩ := hd.under
    have hnext := hnests.shoots hgrows hrules hunder hle fun shoot hshoot hne => hexact ?_
    · exact ⟨hnext.forest, hnext.nodes, fun d hd => hnext.details d (List.mem_reverse.mp hd)⟩
    -- The leaf rule grows no other shoot than a leaf.
    · intro hrule
      rw [hleaf hrule] at hshoot
      exact hne (List.mem_singleton.mp hshoot)

theorem Applies.stays {chosen : Option (List Detail)} (h : p.Applies depth d ground chosen ground') :
    Stays ground.scene ground'.scene := by
  cases h with
  | skipped _ => exact Scene.stays_refl _
  | grown _ hgrows => exact hgrows.stays

/-- Every level of a plant that grows at `q` is nested one node deeper than the one above it. -/
theorem sustains_nesting (hg : p.grammar = .ok g) (q : NodeId) (a : Nat) :
    g.Sustains Stays Forest (fun depth s d => Sited s q (a + depth) d)
      fun depth s id => Nested s q (a + depth + 1) id where
  refl := Scene.stays_refl
  trans := Scene.stays_trans
  apply {depth d ground} hdepth hf hd := by
    obtain ⟨n, -, hunder, -⟩ := hd.under
    obtain ⟨chosen, ground', happly, happlies⟩ :=
      apply_grows hg hd.rule hdepth hf hunder.contains
    have hnothing : Nests q (a + depth) ground.scene.size ground.scene [] :=
      ⟨hf, fun id hmark hid => absurd (Scene.contains_iff.mp hid) (Nat.not_lt.mpr hmark), nofun⟩
    have hnests := happlies.nests hd hnothing
    refine ⟨chosen, ground', happly, hnests.forest, happlies.stays, hnests.details, fun id hid => ?_⟩
    obtain ⟨hmark, hlt⟩ := Scene.mem_since.mp hid
    exact hnests.nodes id hmark (Scene.contains_iff.mpr hlt)
  runs_stays hf hs hd := hd.stays hs hf
  made_stays hf hs hid := hid.stays hs hf

/-! ## Expansion -/

/-- Growth of an accepted plant at a node with `a` nodes above it ends well, and all that it creates
is below that node. A structural node that was created by a rule at depth `d`, which is one of level
`d`, has exactly `a + d + 1` nodes above it, and a leaf at most as many. There are no levels beyond
the bound, so no node has more. -/
theorem expand_nesting (hg : p.grammar = .ok g) (es : List (Edit Float32)) (x : Expansion)
    (hstart : x.start ∈ ruleNames) (hdepth : x.depth.toNat < deepest)
    (hplace : ((Scene.empty : Scene Float32).after es).contains x.first.place.node)
    (stream : Stream) (notes : List Note) :
    let scene := (Scene.empty : Scene Float32).after es
    let a := (scene.ancestors x.first.place.node).length
    ∃ report ground' ls, g.expand x ⟨scene, stream, notes⟩ = .ok report ground' ∧
      g.levels x.first (x.depth.toNat + 1) ⟨scene, stream, notes⟩ = .ok ls ground' ∧
      report.created = ls.flatMap (·.pushed) ∧
      (∀ d l, ls[d]? = some l → ∀ id ∈ l.pushed,
        (ground'.scene.isStructural id → (ground'.scene.ancestors id).length = a + d + 1) ∧
        (¬ground'.scene.isStructural id → (ground'.scene.ancestors id).length ≤ a + d + 1)) ∧
      ∀ id ∈ report.created, (ground'.scene.ancestors id).length ≤ a + x.depth.toNat + 1 ∧
        id ∈ ground'.scene.descendants x.first.place.node ∧
        ∃ d l, d ≤ x.depth.toNat ∧ ls[d]? = some l ∧ id ∈ l.pushed := by
  intro scene a
  let ground : Ground := ⟨scene, stream, notes⟩
  have hf : Forest ground.scene := Scene.after_forest es
  have hsited : Sited ground.scene x.first.place.node a x.first :=
    ⟨hstart, a, Nat.le_refl a, ⟨hplace, List.mem_cons_self, rfl⟩, fun _ => rfl⟩
  obtain ⟨ls, ground', hlevels, hf', -, -, hnodes⟩ :=
    (sustains_nesting hg x.first.place.node a).levels hf hsited hdepth
  refine ⟨_, ground', ls, Grammar.expand_eq_ok.mpr ⟨ls, hlevels, rfl⟩, hlevels, rfl,
    fun d l hl id hid => ?_, fun id hid => ?_⟩
  · have hnested := hnodes d l hl id hid
    exact ⟨hnested.structural, fun _ => hnested.nesting⟩
  · obtain ⟨l, hl, hid⟩ := List.mem_flatMap.mp hid
    obtain ⟨d, hd⟩ := List.getElem?_of_mem hl
    have hle : d ≤ x.depth.toNat := by
      obtain ⟨hlt, -⟩ := List.getElem?_eq_some_iff.mp hd
      rw [Grammar.levels_length hlevels] at hlt
      exact Nat.le_of_lt_succ hlt
    have hnested := hnodes d l hd id hid
    exact ⟨Nat.le_trans hnested.nesting (by omega), (Scene.mem_descendants hf').mpr hnested.below,
      d, l, hle, hd, hid⟩

/-- A node that hangs from the root. -/
def stake : List (Edit Float32) := [.add .identity, .link 0 1]

theorem expand_nesting_stake : ∃ g report ground',
    shrub.grammar = .ok g ∧ "branch" ∈ ruleNames ∧ (3 : UInt32).toNat < deepest ∧
    g.expand ⟨"branch", 3, some (.origin 1)⟩ ⟨Scene.empty.after stake, .ofSeed 5, []⟩ =
      .ok report ground' ∧
    ∀ id ∈ report.created,
      (ground'.scene.ancestors id).length ≤ 5 ∧ id ∈ ground'.scene.descendants 1 := by
  obtain ⟨report, ground', ls, hexpand, -, -, -, hcreated⟩ :=
    expand_nesting (p := shrub) rfl stake ⟨"branch", 3, some (.origin 1)⟩ (by decide) (by decide)
      (by decide +kernel) (.ofSeed 5) []
  refine ⟨_, report, ground', rfl, by decide, by decide, hexpand, fun id hid => ?_⟩
  obtain ⟨hnesting, hbelow, -⟩ := hcreated id hid
  have hbound : ((Scene.empty.after stake).ancestors 1).length + 3 + 1 = 5 := by decide +kernel
  exact ⟨Nat.le_trans hnesting (Nat.le_of_eq hbound), hbelow⟩

end Profile

end Espalier
