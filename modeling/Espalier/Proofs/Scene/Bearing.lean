import Espalier.Proofs.Scene.Traversal
import Mathlib.Data.Set.Basic

/-!
# Walks over structural nodes

A walk over structural nodes goes down from some nodes to their children and does not enter leaves.
It visits what the structural ones among these nodes bear: the structural nodes that can be reached
without stepping on a leaf. If one of them bears another, what that one bears is visited twice.

Results:
1. `exists_walks`: in a forest such a walk ends.
2. `mem_walks`: what it visits.
-/

namespace Espalier.Scene

variable {α : Type} [Scalar α] {s : Scene α} {a b c id x y : NodeId} {pending visited : List NodeId}

/-- `s.Bears a x`: both nodes are structural, and `x` is `a` or stands below it with only structural
nodes in between. -/
def Bears (s : Scene α) (a x : NodeId) : Prop :=
  s.isStructural a ∧ Relation.ReflTransGen (fun p c => c ∈ s.children p ∧ s.isStructural c) a x

theorem Bears.trans (h : s.Bears a b) (h' : s.Bears b c) : s.Bears a c := ⟨h.1, h.2.trans h'.2⟩

theorem bears_self (h : s.isStructural a) : s.Bears a a := ⟨h, .refl⟩

theorem Bears.structural (h : s.Bears a x) : s.isStructural x := by
  obtain ⟨ha, hpath⟩ := h
  cases hpath with
  | refl => exact ha
  | tail _ hstep => exact hstep.2

/-- A structural node bears itself and what its children bear. -/
theorem bears_iff : s.Bears a x ↔
    s.isStructural a ∧ (x = a ∨ ∃ c ∈ s.children a, s.Bears c x) := by
  constructor
  · rintro ⟨ha, hpath⟩
    rcases Relation.ReflTransGen.cases_head hpath with rfl | ⟨c, ⟨hc, hstructural⟩, hrest⟩
    · exact ⟨ha, .inl rfl⟩
    · exact ⟨ha, .inr ⟨c, hc, hstructural, hrest⟩⟩
  · rintro ⟨ha, rfl | ⟨c, hc, hstructural, hrest⟩⟩
    · exact ⟨ha, .refl⟩
    · exact ⟨ha, .head ⟨hc, hstructural⟩ hrest⟩

/-- What a node bears is the node or stands below it. -/
theorem Bears.eq_or_ancestor (hf : Forest s) (h : s.Bears a x) : x = a ∨ a ∈ s.ancestors x := by
  obtain ⟨-, hpath⟩ := h
  induction hpath with
  | refl => exact .inl rfl
  | @tail b c _ hstep ih =>
    rw [hf.ancestors_of_parent (hf.mem_children.mp hstep.1), List.mem_cons]
    exact .inr (ih.imp_left Eq.symm)

/-- No child of a node bears the node. -/
theorem not_bears_parent (hf : Forest s) (hc : c ∈ s.children id) : ¬s.Bears c id := by
  intro h
  have hmem : c ∈ s.ancestors id ∨ c = id := (h.eq_or_ancestor hf).symm.imp_right Eq.symm
  have hnodup := ascends_nodup (hf.ascends_ancestors c)
  rw [hf.ancestors_of_parent (hf.mem_children.mp hc)] at hnodup
  have hnot := (List.nodup_cons.mp hnodup).1
  rw [List.mem_cons, not_or] at hnot
  exact hmem.elim hnot.2 hnot.1

/-! ## Walks -/

/-- `s.Walks pending visited`: visiting the structural nodes among the pending ones, each before its
children and these before the nodes behind it, visits `visited` in this order, and then nothing is
pending. -/
inductive Walks (s : Scene α) : List NodeId → List NodeId → Prop
  | done : Walks s [] []
  | pass {id : NodeId} {pending visited : List NodeId} :
      ¬s.isStructural id → Walks s pending visited → Walks s (id :: pending) visited
  | visit {id : NodeId} {pending visited : List NodeId} :
      s.isStructural id → Walks s (s.children id ++ pending) visited →
        Walks s (id :: pending) (id :: visited)

/-- A walk that ends also ends if it leaves some nodes out in front. -/
theorem exists_walks_of_append {front : List NodeId} (h : s.Walks (front ++ pending) visited) :
    ∃ visited', s.Walks pending visited' := by
  generalize hall : front ++ pending = all at h
  induction h generalizing front with
  | done =>
    obtain ⟨-, rfl⟩ := List.append_eq_nil_iff.mp hall
    exact ⟨[], .done⟩
  | @pass id rest _ hleaf hrest ih =>
    cases front with
    | nil =>
      cases hall
      exact ⟨_, .pass hleaf hrest⟩
    | cons _ front =>
      cases hall
      exact ih rfl
  | @visit id rest _ hstructural hrest ih =>
    cases front with
    | nil =>
      cases hall
      exact ⟨_, .visit hstructural hrest⟩
    | cons _ front =>
      cases hall
      exact ih (List.append_assoc _ _ _)

theorem exists_walks (hf : Forest s) (pending : List NodeId) :
    ∃ visited, s.Walks pending visited := by
  -- The walk that enters leaves as well ends, and visits no less.
  obtain ⟨all, hall⟩ := exists_traverses hf pending
  induction hall with
  | done => exact ⟨[], .done⟩
  | @visit id pending _ _ ih =>
    obtain ⟨visited, hv⟩ := ih
    by_cases hstructural : s.isStructural id
    · exact ⟨id :: visited, .visit hstructural hv⟩
    · obtain ⟨visited', hv'⟩ := exists_walks_of_append hv
      exact ⟨visited', .pass hstructural hv'⟩

theorem walks_append {v w : List NodeId} (ha : s.Walks pending v) {more : List NodeId}
    (hb : s.Walks more w) : s.Walks (pending ++ more) (v ++ w) := by
  induction ha with
  | done => exact hb
  | pass hleaf _ ih => exact .pass hleaf ih
  | visit hstructural _ ih =>
    rw [List.append_assoc] at ih
    exact .visit hstructural ih

/-- A walk visits what the pending nodes bear. -/
theorem mem_walks (h : s.Walks pending visited) : x ∈ visited ↔ ∃ a ∈ pending, s.Bears a x := by
  induction h with
  | done => simp
  | @pass id pending visited hleaf _ ih =>
    have hnone : ¬s.Bears id x := fun hbears => hleaf hbears.1
    simp [ih, hnone]
  | @visit id pending visited hstructural _ ih =>
    have hid : s.Bears id x ↔ x = id ∨ ∃ c ∈ s.children id, s.Bears c x := by
      rw [bears_iff, and_iff_right hstructural]
    simp only [List.mem_cons, ih, List.mem_append, or_and_right, exists_or, exists_eq_left, hid,
      or_assoc]

end Espalier.Scene
