import Espalier.Proofs.Grammar.Levels

/-!
# A deeper bound only continues

Bodies do not see the bound of an expansion, and no level runs before the one above it has ended.
So a deeper expansion first does all that a shallower one does, draw by draw and edit by edit, and
then goes on with the details that the shallower one drops.

Results:
1. `levels_of_le`: the levels of a shallow run are the topmost levels of a deeper one.
2. `expand_depth_prefix`: the same of expansions, for their errors, reports and scenes.
-/

namespace Espalier

namespace Grammar

variable {g : Grammar}

/-- The topmost levels of a run are a run, and from its end the rest goes on. -/
theorem levels_of_le {start : Detail} {n m : Nat} (hnm : n ≤ m) {ls : List Level}
    {ground ground' : Ground} (h : g.levels start m ground = .ok ls ground') :
    ∃ above ground₁, g.levels start n ground = .ok above ground₁ ∧ above <+: ls ∧
      Scene.Evolves ground₁.scene ground'.scene := by
  induction hnm generalizing ls ground' with
  | refl => exact ⟨ls, ground', h, List.prefix_refl _, Scene.evolves_refl _⟩
  | @step k _ ih =>
    obtain ⟨ls₂, ground₂, l, hls₂, hl, rfl⟩ := levels_succ_ok h
    obtain ⟨above, ground₁, habove, hprefix, hevolves⟩ := ih hls₂
    have hlast := level_evolves (g := g) k (waiting start ls₂) ground₂
    rw [hl] at hlast
    exact ⟨above, ground₁, habove, hprefix.trans (List.prefix_append _ _),
      Scene.evolves_trans hevolves hlast⟩

theorem ofLevels_created_prefix {start : Detail} {above ls : List Level} (h : above <+: ls) :
    (Report.ofLevels start above).created <+: (Report.ofLevels start ls).created := by
  obtain ⟨below, rfl⟩ := h
  show above.flatMap (·.pushed) <+: (above ++ below).flatMap (·.pushed)
  rw [List.flatMap_append]
  exact List.prefix_append _ _

theorem sum_le_of_prefix (f : Level → Nat) {above ls : List Level} (h : above <+: ls) :
    (above.map f).sum ≤ (ls.map f).sum := by
  obtain ⟨below, rfl⟩ := h
  rw [List.map_append, List.sum_append]
  exact Nat.le_add_right _ _

/-- A deeper expansion fails where the shallower one does. Otherwise it creates the same nodes
first, counts at least as much, extends the scene, and with one level more it runs exactly what was
dropped. -/
theorem expand_depth_prefix (g : Grammar) (x : Expansion) (deeper : UInt32)
    (h : x.depth < deeper) (ground : Ground) :
    (∀ f ground', g.expand x ground = .error f ground' →
      g.expand { x with depth := deeper } ground = .error f ground') ∧
    ∀ r' ground', g.expand { x with depth := deeper } ground = .ok r' ground' →
      ∃ r ground₁, g.expand x ground = .ok r ground₁ ∧
        r.created <+: r'.created ∧ r.applied ≤ r'.applied ∧ r.skipped ≤ r'.skipped ∧
        Scene.Extends ground₁.scene ground'.scene ∧
        (deeper = x.depth + 1 →
          r.dropped = (r'.applied + r'.skipped) - (r.applied + r.skipped)) := by
  have hlt : x.depth.toNat < deeper.toNat := UInt32.lt_iff_toNat_lt.mp h
  have hle : x.depth.toNat + 1 ≤ deeper.toNat + 1 := by omega
  refine ⟨fun f ground' hx => ?_, fun r' ground' hx => ?_⟩
  · rw [expand_eq_error] at hx ⊢
    exact levels_error_of_le hle hx
  · obtain ⟨ls, hls, rfl⟩ := expand_eq_ok.mp hx
    replace hls : g.levels x.first (deeper.toNat + 1) ground = .ok ls ground' := hls
    obtain ⟨above, ground₁, habove, hprefix, hevolves⟩ := levels_of_le hle hls
    refine ⟨_, ground₁, expand_eq_ok.mpr ⟨above, habove, rfl⟩, ofLevels_created_prefix hprefix,
      sum_le_of_prefix _ hprefix, sum_le_of_prefix _ hprefix, Scene.evolves_extends hevolves, ?_⟩
    -- With one level more, that level has what waited above it.
    intro hsucc
    have hnext : deeper.toNat = x.depth.toNat + 1 := by
      have hone : (1 : UInt32).toNat = 1 := rfl
      rw [hsucc, UInt32.toNat_add, hone] at hlt ⊢
      omega
    rw [hnext] at hls
    obtain ⟨above', ground₂, l, habove', hl, rfl⟩ := levels_succ_ok hls
    rw [habove] at habove'
    cases habove'
    obtain ⟨-, hcount⟩ := level_details hl
    simp only [Report.ofLevels, List.map_append, List.sum_append, List.map_singleton,
      List.sum_singleton]
    omega

/-- A rule that adds a node and schedules itself. -/
def stem : Grammar :=
  ⟨[("stem", .plain fun _ place => do
    let _ ← Build.perform (.add .identity)
    Build.schedule "stem" place)]⟩

theorem stem_depth_prefix :
    (0 : UInt32) < 1 ∧ ∃ r r' ground₁ ground',
      stem.expand ⟨"stem", 0, none⟩ ⟨.empty, .ofSeed 0, []⟩ = .ok r ground₁ ∧
      stem.expand ⟨"stem", 1, none⟩ ⟨.empty, .ofSeed 0, []⟩ = .ok r' ground' ∧
      r.created <+: r'.created ∧ r'.created = [1, 2] ∧
      r.dropped = (r'.applied + r'.skipped) - (r.applied + r.skipped) := by
  have hdeeper : ∃ r' ground',
      stem.expand ⟨"stem", 1, none⟩ ⟨.empty, .ofSeed 0, []⟩ = .ok r' ground' ∧
        r'.created = [1, 2] :=
    ⟨_, _, expand_eq_ok.mpr ⟨_, rfl, rfl⟩, rfl⟩
  obtain ⟨r', ground', hr', hcreated⟩ := hdeeper
  obtain ⟨-, hok⟩ := expand_depth_prefix stem ⟨"stem", 0, none⟩ 1 (by decide)
    ⟨.empty, .ofSeed 0, []⟩
  obtain ⟨r, ground₁, hr, hprefix, -, -, -, hdropped⟩ := hok r' ground' hr'
  exact ⟨by decide, r, r', ground₁, ground', hr, hr', hprefix, hcreated, hdropped (by decide)⟩

end Grammar

end Espalier
