import Espalier.Proofs.Grammar.Tending

/-!
# Where the nodes of an expansion come from

A node that an expansion creates was put there by the application of a rule at one detail, on the
ground that the levels above and the details to the left of it had left. What a grammar sustains
holds on that ground, and what the application leaves stays within the frame to the end.

Results:
1. `levels_origin`: every created node was created by an application at the depth of its level.
2. `Sustains.applies`: what is known of the ground of an application, and of the way from there to
   the end of the expansion.
-/

namespace Espalier.Grammar

variable {g : Grammar} {start d : Detail} {depth i n : Nat} {ds right : List Detail}
  {ground before after ground' : Ground}

/-- An expansion that begins with `start` applies the rule of a detail at a depth: with the levels
above and the details to the left behind it, on the one ground, which it leaves as the other. -/
structure Applies (g : Grammar) (start : Detail) (ground : Ground) (depth : Nat) (d : Detail)
    (before after : Ground) : Prop where
  reached : ∃ above ground₁ left right l, g.levels start depth ground = .ok above ground₁ ∧
    waiting start above = left ++ d :: right ∧ g.level depth left ground₁ = .ok l before
  applied : ∃ chosen, g.apply ⟨d, depth⟩ before = .ok chosen after

/-! ## Nodes of a level -/

theorem level_append {left : List Detail} {l rest : Level}
    (hleft : g.level depth left ground = .ok l before)
    (hright : g.level depth right before = .ok rest ground') :
    g.level depth (left ++ right) ground = .ok (l.append rest) ground' := by
  induction left generalizing ground l with
  | nil =>
    cases hleft
    simpa [Level.append] using hright
  | cons d left ih =>
    obtain ⟨chosen, ground₁, rest', happly, hrest', rfl⟩ := level_cons_ok hleft
    rw [List.cons_append, level_cons happly (ih hrest')]
    simp [Level.append, Nat.add_assoc]

/-- A node that a level pushes was created at one of its details. -/
theorem level_origin {l : Level} (h : g.level depth ds ground = .ok l ground') {id : NodeId}
    (hid : id ∈ l.pushed) :
    ∃ left d right l₁ before after, ds = left ++ d :: right ∧
      g.level depth left ground = .ok l₁ before ∧
      (∃ chosen, g.apply ⟨d, depth⟩ before = .ok chosen after) ∧
      id ∈ after.scene.since before.scene.size := by
  induction ds generalizing ground l with
  | nil =>
    cases h
    cases hid
  | cons d ds ih =>
    obtain ⟨chosen, ground₁, rest, happly, hrest, rfl⟩ := level_cons_ok h
    rw [Level.pushed_append, List.mem_append, pushed_single happly] at hid
    rcases hid with hid | hid
    · exact ⟨[], d, ds, _, ground, ground₁, rfl, rfl, ⟨chosen, happly⟩, hid⟩
    · obtain ⟨left, d', right, l₁, before, after, rfl, hleft, happlied, hmem⟩ := ih hrest hid
      exact ⟨d :: left, d', right, _, before, after, rfl, level_cons happly hleft, happlied, hmem⟩

/-- A node that the levels push was created by an application at the depth of its level. -/
theorem levels_origin {ls : List Level} (h : g.levels start n ground = .ok ls ground') {id : NodeId}
    (hid : id ∈ ls.flatMap (·.pushed)) :
    ∃ depth d before after, depth < n ∧ g.Applies start ground depth d before after ∧
      id ∈ after.scene.since before.scene.size := by
  induction n generalizing ls ground' with
  | zero =>
    cases h
    cases hid
  | succ n ih =>
    obtain ⟨above, ground₁, l, habove, hl, rfl⟩ := levels_succ_ok h
    rw [List.flatMap_append, List.flatMap_singleton, List.mem_append] at hid
    rcases hid with hid | hid
    · obtain ⟨depth, d, before, after, hlt, happlies, hmem⟩ := ih habove hid
      exact ⟨depth, d, before, after, Nat.lt_succ_of_lt hlt, happlies, hmem⟩
    · obtain ⟨left, d, right, l₁, before, after, hwaiting, hleft, happlied, hmem⟩ :=
        level_origin hl hid
      exact ⟨n, d, before, after, Nat.lt_succ_self n,
        ⟨⟨above, ground₁, left, right, l₁, habove, hwaiting, hleft⟩, happlied⟩, hmem⟩

/-! ## What is sustained around an application -/

namespace Sustains

variable {frame : Scene Float32 → Scene Float32 → Prop} {law : Scene Float32 → Prop}
  {runs : Nat → Scene Float32 → Detail → Prop} {made : Nat → Scene Float32 → NodeId → Prop}
  {ls above : List Level}

/-- Deeper levels stay within the frame of the levels above them. -/
theorem levels_frame (h : g.Sustains frame law runs made) (hlaw : law ground.scene)
    (hstart : runs 0 ground.scene start) (hin : i ≤ n) (hn : n ≤ deepest)
    (habove : g.levels start i ground = .ok above before)
    (hls : g.levels start n ground = .ok ls ground') : frame before.scene ground'.scene := by
  induction hin generalizing ls ground' with
  | refl =>
    rw [habove] at hls
    cases hls
    exact h.refl _
  | @step n _ ih =>
    obtain ⟨ls₁, ground₁, l, hls₁, hl, rfl⟩ := levels_succ_ok hls
    obtain ⟨_, _, hls₁', hlaw₁, -, hwaiting, -⟩ := h.levels hlaw hstart (Nat.le_of_succ_le hn)
    rw [hls₁] at hls₁'
    cases hls₁'
    obtain ⟨_, _, hl', -, hframe, -⟩ := h.level hn hlaw₁ hwaiting
    rw [hl] at hl'
    cases hl'
    exact h.trans (ih (Nat.le_of_succ_le hn) hls₁) hframe

/-- The ground of an application is lawful and the detail can be run there; what comes after it
stays within the frame. -/
theorem applies (h : g.Sustains frame law runs made) (hlaw : law ground.scene)
    (hstart : runs 0 ground.scene start) (happlies : g.Applies start ground depth d before after)
    (hdepth : depth < n) (hn : n ≤ deepest) (hls : g.levels start n ground = .ok ls ground') :
    law before.scene ∧ runs depth before.scene d ∧ frame ground.scene before.scene ∧
      frame after.scene ground'.scene := by
  obtain ⟨⟨above, ground₁, left, right, l, habove, hwaiting, hleft⟩, chosen, happly⟩ := happlies
  have hlt : depth < deepest := Nat.lt_of_lt_of_le hdepth hn
  obtain ⟨_, _, habove', hlaw₁, hframe₁, hruns, -⟩ := h.levels hlaw hstart (Nat.le_of_lt hlt)
  rw [habove] at habove'
  cases habove'
  rw [hwaiting] at hruns
  obtain ⟨hrunsLeft, hruns⟩ := List.forall_mem_append.mp hruns
  obtain ⟨hd, hrunsRight⟩ := List.forall_mem_cons.mp hruns
  -- The details to the left of it.
  obtain ⟨_, _, hleft', hlaw₂, hframe₂, -⟩ := h.level hlt hlaw₁ hrunsLeft
  rw [hleft] at hleft'
  cases hleft'
  have hd₂ := h.runs_stays hlaw₁ hframe₂ hd
  -- The detail itself, and those to the right.
  obtain ⟨_, _, happly', hlaw₃, hframe₃, -⟩ := h.apply hlt hlaw₂ hd₂
  rw [happly] at happly'
  cases happly'
  obtain ⟨rest, ground₄, hrest, -, hframe₄, -⟩ := h.level hlt hlaw₃ fun d' hd' =>
    h.runs_stays hlaw₂ hframe₃ (h.runs_stays hlaw₁ hframe₂ (hrunsRight d' hd'))
  have hwhole := level_append hleft (level_cons happly hrest)
  rw [← hwaiting] at hwhole
  have hbelow := h.levels_frame hlaw hstart hdepth hn (levels_succ habove hwhole) hls
  exact ⟨hlaw₂, hd₂, h.trans hframe₁ hframe₂, h.trans hframe₄ hbelow⟩

end Sustains

end Espalier.Grammar
