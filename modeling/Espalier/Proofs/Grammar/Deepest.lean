import Espalier.Proofs.Grammar.Passage

/-!
# The deepest level

Levels are numbered by 32-bit words, so what is scheduled on the last of them has no number. No
detail runs beyond the bound of its expansion, so this can happen only if the bound is the largest
one. A body on the deepest level may then do all that others do but schedule a rule: where another
expansion would drop the detail, this one fails.

Results:
1. `Passes.depths`: on which levels details run.
2. `HasRoom.run_eq`, `expand_of_no_room`: what a body does on a level with a number for the next,
   and without one.
3. `expand_levels_numbered`: both, for all expansions.
-/

namespace Espalier

namespace Grammar

variable {a : Access} {g : Grammar a} {x : Expansion} {bound : Nat} {p : Pending} {l l' : Line}
  {passes : List Pass} {m : Build a Unit} {w : Workspace} {ground : Ground}

/-- The oldest detail in line selects this body, and it runs on this workspace. -/
inductive Runs (g : Grammar a) : Line → Pending → Build a Unit → Workspace → Prop
  | body {p : Pending} {behind : List Pending} {ground : Ground} {r : Rule a} {body : Body a}
      {stream : Stream}
      (found : g.rule? p.rule = some r)
      (selected : r.select ground.stream = (some body, stream)) :
      Runs g ⟨p :: behind, ground⟩ p (body p.depth p.place) ⟨{ ground with stream }, []⟩

/-- If the oldest detail in line runs a body that schedules something, there is a number for the
level of that. -/
def HasRoom (g : Grammar a) (l : Line) : Prop :=
  ∀ p m w, g.Runs l p m w → m.wishes g.contains w.toGround ≠ [] → p.depth + 1 < UInt32.size

/-! ## Levels of details -/

theorem depth_of_mem_keep {depth : Nat} {ds : List Detail} (h : p ∈ keep bound depth ds) :
    p.depth = depth + 1 ∧ p.depth ≤ bound := by
  unfold keep at h
  split at h
  next hlt =>
    obtain ⟨d, -, rfl⟩ := List.mem_map.mp h
    exact ⟨rfl, hlt⟩
  · cases h

namespace Passes

/-- No detail is taken that is beyond the bound, and what joins is one level deeper. -/
theorem depths (h : g.Passes bound l passes l') (hl : ∀ p ∈ l.queue, p.depth ≤ bound) :
    (∀ pass ∈ passes, pass.taken.depth ≤ bound ∧
      ∀ p ∈ pass.joined, p.depth = pass.taken.depth + 1 ∧ p.depth ≤ bound) ∧
    ∀ p ∈ l'.queue, p.depth ≤ bound := by
  induction h with
  | here l => exact ⟨nofun, hl⟩
  | next applied later ih =>
    obtain ⟨hhead, hbehind⟩ := List.forall_mem_cons.mp hl
    obtain ⟨hlater, hend⟩ := ih (List.forall_mem_append.mpr
      ⟨hbehind, fun q hq => (depth_of_mem_keep hq).2⟩)
    exact ⟨List.forall_mem_cons.mpr ⟨⟨hhead, fun q => depth_of_mem_keep⟩, hlater⟩, hend⟩

end Passes

/-! ## Bodies at the head of the line -/

theorem contains_of_apply_ok {chosen : Option (List Detail)} {ground' : Ground}
    (h : g.apply p ground = .ok chosen ground') : g.contains p.rule := by
  unfold contains
  cases hr : g.rule? p.rule with
  | none => simp [apply, hr] at h
  | some r => rfl

/-- An expansion that comes to run a body knows its start rule. -/
theorem Passes.start_known (h : g.Passes bound (x.line ground) passes l)
    (hruns : g.Runs l p m w) : g.contains x.start := by
  cases h with
  | here =>
    cases hruns with
    | body found _ => exact Option.isSome_iff_exists.mpr ⟨_, found⟩
  | next applied _ => exact contains_of_apply_ok applied

/-- With a number for what it schedules, a body runs as on the first level. -/
theorem HasRoom.run_eq (hl : g.HasRoom l) (hruns : g.Runs l p m w) :
    m.run g.contains p.depth w = m.run g.contains 0 w := by
  rcases Build.run_cases g.contains p.depth m w with ⟨hrun, -⟩ | ⟨hdeep, hwishes, -⟩
  · exact hrun
  · have hlt := hl p m w hruns hwishes
    rw [hdeep] at hlt
    exact absurd hlt (by decide)

/-- Without a number for what it schedules, a body fails, and so does the expansion. -/
theorem expand_of_no_room (h : g.Passes x.depth.toNat (x.line ground) passes l)
    (hl : ¬g.HasRoom l) : x.depth.toNat = deepest ∧
      ∃ ground', g.expand x ground = .error (.fault .depthOverflow) ground' := by
  obtain ⟨p, m, w, hruns, hwishes, hsize⟩ : ∃ p m w, g.Runs l p m w ∧
      m.wishes g.contains w.toGround ≠ [] ∧ ¬p.depth + 1 < UInt32.size := by
    by_contra hnone
    exact hl fun p m w hruns hwishes =>
      by_contra fun hsize => hnone ⟨p, m, w, hruns, hwishes, hsize⟩
  have hknown := h.start_known hruns
  obtain ⟨-, hdepths⟩ := h.depths (List.forall_mem_singleton.mpr (Nat.zero_le _))
  have hbound : x.depth.toNat ≤ deepest := Nat.le_pred_of_lt x.depth.toNat_lt
  cases hruns with
  | @body p behind ground₁ r body stream found selected =>
    -- The bound lies between the level of the body and the deepest one, which are the same.
    have hp : p.depth ≤ x.depth.toNat := hdepths p List.mem_cons_self
    have hdeep : deepest ≤ p.depth := Nat.sub_le_iff_le_add.mpr (Nat.not_lt.mp hsize)
    refine ⟨Nat.le_antisymm hbound (Nat.le_trans hdeep hp), ?_⟩
    rcases Build.run_cases g.contains p.depth (body p.depth p.place)
      ⟨{ ground₁ with stream }, []⟩ with ⟨-, hnone⟩ | ⟨-, -, w', hrun⟩
    · exact absurd (hnone (Nat.le_antisymm (Nat.le_trans hp hbound) hdeep)) hwishes
    · have hfails : g.Fails ⟨p :: behind, ground₁⟩ _ w'.toGround := .body found selected hrun
      have hhead : g.contains p.rule := Option.isSome_iff_exists.mpr ⟨r, found⟩
      exact ⟨_, expand_of_apply_error hknown h rfl ((apply_error_iff hhead behind).mpr hfails)⟩

/-- No detail of an expansion runs beyond the bound, and what a body schedules is one level deeper
than the body or is dropped. There is a number for that level unless the bound is the largest one:
bodies above the deepest level run as if levels had no end, and so do those on it that schedule
nothing. An expansion that comes to another one on the deepest level fails there. -/
theorem expand_levels_numbered (g : Grammar a) (x : Expansion) (ground : Ground) :
    ∀ passes l, g.Passes x.depth.toNat (x.line ground) passes l →
      ((∀ pass ∈ passes, pass.taken.depth ≤ x.depth.toNat ∧
          ∀ p ∈ pass.joined, p.depth = pass.taken.depth + 1 ∧ p.depth ≤ x.depth.toNat) ∧
        ∀ p ∈ l.queue, p.depth ≤ x.depth.toNat) ∧
      (x.depth.toNat < deepest → g.HasRoom l) ∧
      (g.HasRoom l → ∀ p m w, g.Runs l p m w →
        m.run g.contains p.depth w = m.run g.contains 0 w) ∧
      (¬g.HasRoom l → x.depth.toNat = deepest ∧
        ∃ ground', g.expand x ground = .error (.fault .depthOverflow) ground') := by
  intro passes l h
  refine ⟨h.depths (List.forall_mem_singleton.mpr (Nat.zero_le _)), fun hlt => ?_,
    fun hl p m w => hl.run_eq, expand_of_no_room h⟩
  by_contra hl
  exact Nat.ne_of_lt hlt (expand_of_no_room h hl).1

/-- A body that does nothing but schedule its own rule, where it runs. -/
def again : Body := fun _ place => Build.schedule "again" place

def loop : Grammar := ⟨[("again", .plain again)]⟩

/-- The rule in line on some level, on a new scene. -/
def loopLine (depth : Nat) : Line :=
  ⟨[⟨⟨"again", .origin Scene.root⟩, depth⟩], ⟨.empty, .ofSeed 0, []⟩⟩

theorem loop_apply (depth : Nat) :
    loop.apply ⟨⟨"again", .origin Scene.root⟩, depth⟩ ⟨.empty, .ofSeed 0, []⟩ =
      if depth = deepest then .error (.fault .depthOverflow) ⟨.empty, .ofSeed 0, []⟩
      else .ok (some [⟨"again", .origin Scene.root⟩]) ⟨.empty, .ofSeed 0, []⟩ := by
  have hrule : loop.rule? "again" = some (.plain again) := rfl
  have hknown : loop.contains "again" := rfl
  simp only [apply, hrule, Rule.select, again, Build.schedule]
  by_cases h : depth = deepest <;> simp [Build.run, Build.ofExcept, hknown, h]

theorem loop_next {depth : Nat} (hbound : depth < bound) (hdeep : depth < deepest)
    (h : loop.Passes bound (loopLine (depth + 1)) passes l) :
    ∃ passes, loop.Passes bound (loopLine depth) passes l := by
  have happly := loop_apply depth
  rw [if_neg (Nat.ne_of_lt hdeep)] at happly
  have hkeep : keep bound depth [⟨"again", .origin Scene.root⟩] =
      [⟨⟨"again", .origin Scene.root⟩, depth + 1⟩] := if_pos hbound
  exact ⟨_, .next happly (by rwa [Option.getD_some, hkeep])⟩

/-- The rule is in line on one level after the other, down to the bound. -/
theorem loop_passes {depth n : Nat} (hbound : depth + n ≤ bound) (hdeep : depth + n ≤ deepest) :
    ∃ passes, loop.Passes bound (loopLine depth) passes (loopLine (depth + n)) := by
  induction n generalizing depth with
  | zero => exact ⟨[], .here _⟩
  | succ n ih =>
    have hlt : depth < depth + (n + 1) := Nat.lt_add_of_pos_right (Nat.succ_pos n)
    rw [Nat.add_comm n, ← Nat.add_assoc] at hbound hdeep hlt ⊢
    obtain ⟨passes, hpasses⟩ := ih hbound hdeep
    exact loop_next (Nat.lt_of_lt_of_le hlt hbound) (Nat.lt_of_lt_of_le hlt hdeep) hpasses

theorem loop_runs (depth : Nat) : loop.Runs (loopLine depth)
    ⟨⟨"again", .origin Scene.root⟩, depth⟩ (again depth (.origin Scene.root))
      ⟨⟨.empty, .ofSeed 0, []⟩, []⟩ :=
  @Runs.body _ _ ⟨⟨"again", .origin Scene.root⟩, depth⟩ [] _ _ again _ rfl rfl

theorem loop_wishes (depth : Nat) :
    (again depth (.origin Scene.root)).wishes loop.contains ⟨.empty, .ofSeed 0, []⟩ ≠ [] := by
  have hknown : loop.contains "again" := rfl
  simp [again, Build.schedule, Build.wishes_detail, hknown]

/-- With the largest bound, the rule comes to the level where it cannot schedule itself. -/
theorem loop_overflows :
    let ground : Ground := ⟨.empty, .ofSeed 0, []⟩
    let x : Expansion := ⟨"again", 0xffffffff, none⟩
    (∃ passes l, loop.Passes x.depth.toNat (x.line ground) passes l ∧ ¬loop.HasRoom l) ∧
      loop.expand x ground = .error (.fault .depthOverflow) ground := by
  intro ground x
  obtain ⟨passes, hpasses⟩ := loop_passes (show 0 + deepest ≤ x.depth.toNat by decide) (by simp)
  rw [Nat.zero_add] at hpasses
  have hfull : ¬loop.HasRoom (loopLine deepest) := fun hroom =>
    absurd (hroom _ _ _ (loop_runs deepest) (loop_wishes deepest)) (by decide)
  have happly := loop_apply deepest
  rw [if_pos rfl] at happly
  exact ⟨⟨passes, _, hpasses, hfull⟩, expand_of_apply_error rfl hpasses rfl happly⟩

/-- With a small bound there is room, also on its last level. -/
theorem loop_levels_numbered :
    let x : Expansion := ⟨"again", 1, none⟩
    let w : Workspace := ⟨⟨.empty, .ofSeed 0, []⟩, []⟩
    ∃ passes, loop.Passes 1 (x.line w.toGround) passes (loopLine 1) ∧
      loop.HasRoom (loopLine 1) ∧
      (again 1 (.origin Scene.root)).run loop.contains 1 w =
        (again 1 (.origin Scene.root)).run loop.contains 0 w := by
  intro x w
  obtain ⟨passes, hpasses⟩ := @loop_passes 1 0 1 (by decide) (by decide)
  obtain ⟨-, hroom, hrun, -⟩ := expand_levels_numbered loop x w.toGround passes _ hpasses
  have hl : loop.HasRoom (loopLine 1) := hroom (by decide)
  exact ⟨passes, hpasses, hl, hrun hl _ _ _ (loop_runs 1)⟩

end Grammar

end Espalier
