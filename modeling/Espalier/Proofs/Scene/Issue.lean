import Espalier.Proofs.Scene.Change

/-!
# Numbers of nodes

An edit that creates a node answers with the number of the node, unless the node is a leaf that is
refused by its parent; such a leaf stays in the scene, and its number is never told. Numbers are
places in a list that only grows, so a number that was told once is that of the same node from then
on, and is never told again.

Results:
1. `issued_sublist`: the numbers that a history tells are among those of the nodes that the scene
   gains, in the same order.
2. `history_extends`: what a history leaves of a scene that another history has made.
-/

namespace Espalier

/-- What an action answers, if it succeeds. -/
def answer? {ε σ β : Type} : EStateM.Result ε σ β → Option β
  | .ok b _ => some b
  | .error _ _ => none

variable {α : Type} [Scalar α]

/-- The number of the node that an edit creates, as the edit tells it. -/
def Edit.issued? (s : Scene α) : Edit α → Option NodeId
  | .add t => answer? (Scene.add t s)
  | .hang p mesh => answer? (Scene.hang p mesh s)
  | .register .. | .setFrame .. | .link .. | .join .. | .hold .. | .grab .. | .aim ..
  | .release _ => none

namespace Scene

/-- The numbers that a history tells, in order. -/
def issued (s : Scene α) : List (Edit α) → List NodeId
  | [] => []
  | e :: es => (e.issued? s).toList ++ (final (e.run s)).issued es

theorem answer?_hang (p : Point α) (mesh : Mesh) (s : Scene α) :
    answer? (hang p mesh s) = none ∨ answer? (hang p mesh s) = some s.size := by
  simp only [hang]
  split
  · exact .inl rfl
  · exact .inr rfl

/-- An edit tells the number of no node but the one that it adds. -/
theorem issued?_sublist (e : Edit α) (s : Scene α) :
    (e.issued? s).toList.Sublist (e.pushes s) := by
  cases e with
  | add t => exact List.Sublist.refl [s.size]
  | hang p mesh =>
    rw [Edit.issued?]
    rcases answer?_hang p mesh s with h | h
    · rw [h]
      exact List.nil_sublist _
    · rw [h]
      exact List.Sublist.refl [s.size]
  | _ => exact List.Sublist.refl []

/-- The numbers that a history tells are among those of the nodes that the scene gains, in the same
order. -/
theorem issued_sublist (es : List (Edit α)) (s : Scene α) :
    (s.issued es).Sublist ((s.after es).since s.size) := by
  induction es generalizing s with
  | nil => exact List.nil_sublist _
  | cons e es ih =>
    have hgained := since_append_of_evolves (edit_evolves e s) (after_evolves es (final (e.run s)))
    rw [← pushes_eq_since] at hgained
    exact hgained ▸ (issued?_sublist e s).append (ih _)

theorem issued_nodup (es : List (Edit α)) (s : Scene α) : (s.issued es).Nodup :=
  (issued_sublist es s).nodup (List.nodup_range' 1)

/-- A scene that a history has made only grows in a later one, refused edits included: it keeps its
nodes, each with its kind, its parent, its children and its points. A node that is created later
has a number that no node of the scene has, and that was not told before. -/
theorem history_extends (es later : List (Edit α)) :
    let s : Scene α := empty.after es
    let s' := s.after later
    Extends s s' ∧ (∀ id ∈ s.issued later, ¬ s.contains id ∧ s'.contains id) ∧
      (root :: (empty : Scene α).issued (es ++ later)).Nodup := by
  intro s s'
  refine ⟨evolves_extends (after_evolves later s), fun id hid => ?_, ?_⟩
  · obtain ⟨hle, hlt⟩ := mem_since.mp ((issued_sublist later s).mem hid)
    exact ⟨fun hold => Nat.not_lt.mpr hle (contains_iff.mp hold), contains_iff.mpr hlt⟩
  · refine List.nodup_cons.mpr ⟨fun hroot => ?_, issued_nodup _ _⟩
    obtain ⟨hle, -⟩ := mem_since.mp ((issued_sublist _ _).mem hroot)
    exact Nat.not_succ_le_zero _ hle

end Scene

end Espalier
