import Espalier.Proofs.Cost.Coherence
import Espalier.Proofs.Scene.Planted
import Mathlib.Data.List.TakeWhile

/-!
# A scoring charges each new structural node once

A scoring walks down from the nodes that were added, over structural nodes only, and passes over a
node that it has charged. In a planted scene children are younger than their parents, so the walk
never leaves the added nodes; they are fewer than the steps that it may take, so it charges all of
them that are structural.

Results:
1. `scored_nodup`, `scored_subset`, `scored_covers`: no node is charged twice, no other nodes are
   charged than those pending and below them, and no pending node is left out.
2. `account_nodes`: the account of a scoring names the structural ones among the added nodes.
3. `Guide.charge?_of_stays`: a node is charged the same in a scene that has grown since.
-/

namespace Espalier

namespace GuidedSession

variable {s : Scene Float32} {seen : Std.TreeSet NodeId}

theorem not_passes_iff {id : NodeId} :
    ¬ passes s seen id ↔ s.isStructural id ∧ id ∉ seen := by
  simp [passes]

theorem mem_insert {id x : NodeId} : x ∈ seen.insert id ↔ x = id ∨ x ∈ seen := by
  rw [Std.TreeSet.mem_insert, Std.LawfulEqCmp.compare_eq_iff_eq, eq_comm]

/-- One step of the walk: nothing is left to charge, or the first node is charged that is not
passed over. -/
theorem scored_succ (s : Scene Float32) (steps : Nat) (seen : Std.TreeSet NodeId)
    (pending : List NodeId) :
    (scored s (steps + 1) seen pending = [] ∧ ∀ x ∈ pending, passes s seen x) ∨
      ∃ passed id rest, pending = passed ++ id :: rest ∧ (∀ x ∈ passed, passes s seen x) ∧
        s.isStructural id ∧ id ∉ seen ∧
        scored s (steps + 1) seen pending =
          id :: scored s steps (seen.insert id) (s.children id ++ rest) := by
  rw [scored]
  cases hnext : pending.dropWhile (passes s seen) with
  | nil => exact .inl ⟨rfl, List.dropWhile_eq_nil_iff.mp hnext⟩
  | cons id rest =>
    have hsplit := List.takeWhile_append_dropWhile (p := passes s seen) (l := pending)
    have hid := List.head?_dropWhile_not (passes s seen) pending
    rw [hnext] at hsplit hid
    obtain ⟨hstructural, hnew⟩ := not_passes_iff.mp (Bool.eq_false_iff.mp hid)
    exact .inr ⟨pending.takeWhile (passes s seen), id, rest, hsplit.symm,
      fun x hx => List.mem_takeWhile_imp hx, hstructural, hnew, rfl⟩

/-- Only structural nodes are charged, and none that was charged before. -/
theorem scored_new (s : Scene Float32) (steps : Nat) (seen : Std.TreeSet NodeId)
    (pending : List NodeId) :
    ∀ x ∈ scored s steps seen pending, s.isStructural x ∧ x ∉ seen := by
  induction steps generalizing seen pending with
  | zero => exact fun x hx => (nomatch hx)
  | succ steps ih =>
    rcases scored_succ s steps seen pending with
      ⟨hnone, -⟩ | ⟨passed, id, rest, -, -, hid, hnew, hscored⟩
    · rw [hnone]
      exact fun x hx => (nomatch hx)
    · rw [hscored]
      refine List.forall_mem_cons.mpr ⟨⟨hid, hnew⟩, fun x hx => ?_⟩
      obtain ⟨hx, hunseen⟩ := ih _ _ x hx
      exact ⟨hx, fun hmem => hunseen (mem_insert.mpr (.inr hmem))⟩

/-- No node is charged twice. -/
theorem scored_nodup (s : Scene Float32) (steps : Nat) (seen : Std.TreeSet NodeId)
    (pending : List NodeId) : (scored s steps seen pending).Nodup := by
  induction steps generalizing seen pending with
  | zero => exact List.nodup_nil
  | succ steps ih =>
    rcases scored_succ s steps seen pending with
      ⟨hnone, -⟩ | ⟨passed, id, rest, -, -, -, -, hscored⟩
    · rw [hnone]
      exact List.nodup_nil
    · rw [hscored]
      refine List.nodup_cons.mpr ⟨fun hmem => ?_, ih _ _⟩
      obtain ⟨-, hunseen⟩ := scored_new _ _ _ _ id hmem
      exact hunseen (mem_insert.mpr (.inl rfl))

/-- The walk stays among nodes that have all their children among them. -/
theorem scored_subset {P : NodeId → Prop} (hclosed : ∀ id, P id → ∀ c ∈ s.children id, P c)
    (steps : Nat) (seen : Std.TreeSet NodeId) {pending : List NodeId}
    (hpending : ∀ x ∈ pending, P x) : ∀ x ∈ scored s steps seen pending, P x := by
  induction steps generalizing seen pending with
  | zero => exact fun x hx => (nomatch hx)
  | succ steps ih =>
    rcases scored_succ s steps seen pending with
      ⟨hnone, -⟩ | ⟨passed, id, rest, rfl, -, -, -, hscored⟩
    · rw [hnone]
      exact fun x hx => (nomatch hx)
    · rw [hscored]
      obtain ⟨-, hrest⟩ := List.forall_mem_append.mp hpending
      obtain ⟨hid, hrest⟩ := List.forall_mem_cons.mp hrest
      exact List.forall_mem_cons.mpr
        ⟨hid, ih _ (List.forall_mem_append.mpr ⟨hclosed id hid, hrest⟩)⟩

/-- The walk uses all its steps, or it charges every pending node that is structural and new. -/
theorem scored_covers (s : Scene Float32) (steps : Nat) (seen : Std.TreeSet NodeId)
    (pending : List NodeId) :
    (scored s steps seen pending).length = steps ∨
      ∀ x ∈ pending, s.isStructural x → x ∉ seen → x ∈ scored s steps seen pending := by
  induction steps generalizing seen pending with
  | zero => exact .inl rfl
  | succ steps ih =>
    rcases scored_succ s steps seen pending with
      ⟨-, hpassed⟩ | ⟨passed, id, rest, rfl, hpassed, -, -, hscored⟩
    · exact .inr fun x hx hstructural hnew =>
        absurd (hpassed x hx) (not_passes_iff.mpr ⟨hstructural, hnew⟩)
    · rw [hscored]
      rcases ih (seen.insert id) (s.children id ++ rest) with hall | hcovers
      · exact .inl (congrArg Nat.succ hall)
      · refine .inr fun x hx hstructural hnew => ?_
        by_cases heq : x = id
        · exact heq ▸ List.mem_cons_self
        · have hrest : x ∈ rest := by
            rcases List.mem_append.mp hx with hx | hx
            · exact absurd (hpassed x hx) (not_passes_iff.mpr ⟨hstructural, hnew⟩)
            · exact (List.mem_cons.mp hx).resolve_left heq
          refine List.mem_cons_of_mem _ (hcovers x (List.mem_append_right _ hrest) hstructural ?_)
          rw [mem_insert, not_or]
          exact ⟨heq, hnew⟩

/-! ## Scoring what was added -/

/-- A scoring of the nodes from some number on charges the structural ones among them, and no
others. -/
theorem scored_since (hs : Scene.Planted s) {mark : Nat} (hmark : 1 ≤ mark) :
    (scored s s.size ∅ (s.since mark)).Perm ((s.since mark).filter s.isStructural) := by
  have hchildren : ∀ id, id ∈ s.since mark → ∀ c ∈ s.children id, c ∈ s.since mark := by
    intro id hid c hc
    have hlt := hs.lt_of_mem_children hc
    have hmem : s.contains c := Scene.contains_of_parent (hs.forest.mem_children.mp hc)
    rw [Scene.mem_since] at hid ⊢
    exact ⟨Nat.le_trans hid.1 (Nat.le_of_lt hlt), Scene.contains_iff.mp hmem⟩
  have hnodup := scored_nodup s s.size ∅ (s.since mark)
  have hsubset := scored_subset hchildren s.size ∅ fun _ hx => hx
  refine (List.perm_ext_iff_of_nodup hnodup ((List.nodup_range' 1).filter _)).mpr fun x => ?_
  rw [List.mem_filter]
  constructor
  · intro hx
    exact ⟨hsubset x hx, (scored_new s s.size ∅ (s.since mark) x hx).1⟩
  · rintro ⟨hx, hstructural⟩
    rcases scored_covers s s.size ∅ (s.since mark) with hall | hcovers
    · -- The added nodes are fewer than the steps, as the root is not one of them.
      have hlength := hnodup.length_le_of_subset hsubset
      rw [hall, Scene.since, List.length_range'] at hlength
      have hpos : 0 < s.size := Scene.contains_iff.mp hs.forest.root_mem
      omega
    · exact hcovers x hx hstructural Std.TreeSet.not_mem_emptyc

theorem account_eq_map (guides : List Guide) (hf : Scene.Forest s) (added : List NodeId) :
    (ofGuides guides).account s added =
      (scored s s.size ∅ added).map fun id => ⟨id, Guide.charge? guides s id⟩ :=
  entries_of_coherent hf s.size (ofGuides_coherent guides s) ∅ added

/-- The account of a scoring of the nodes from some number on names the structural ones among them,
each once. -/
theorem account_nodes (guides : List Guide) (hs : Scene.Planted s) {mark : Nat} (hmark : 1 ≤ mark) :
    (((ofGuides guides).account s (s.since mark)).map (·.node)).Perm
      ((s.since mark).filter s.isStructural) := by
  rw [account_eq_map guides hs.forest, List.map_map]
  exact (List.map_id _).symm ▸ scored_since hs hmark

end GuidedSession

/-- A node is charged the same in a scene that has grown since. -/
theorem Guide.charge?_of_stays (guides : List Guide) {s s' : Scene Float32}
    (hs : Scene.Stays s s') (hf : Scene.Forest s) {id : NodeId} (hid : s.contains id) :
    Guide.charge? guides s' id = Guide.charge? guides s id := by
  unfold Guide.charge?
  rw [(hs.rests id hid).parent]
  cases hp : s.parent? id with
  | none => rfl
  | some p => simp only [hs.worldPosition hf hid, hs.worldPosition hf (hf.parent_mem id p hp)]

end Espalier
