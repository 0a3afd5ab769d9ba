import Espalier.Proofs.Scene.Traversal

/-!
# What is below a node, and what may be put there

The walk down goes through one subtree after the other, so a subtree is one block of what it visits:
a node, and right behind it what is below the node. A climb goes the other way, and the two agree on
who is above whom.

A link is checked before it is made, by a climb from the new parent. The checks refuse exactly the
links that would leave no forest, where a node has two parents, the root has one, or a climb goes
round.

Results:
1. `descendants_eq_flatMap`, `prefix_of_traverses`, `not_mem_behind`: the order of the walk down.
2. `closes_cycle`, `linked_forest_iff`: what a link would do that the checks refuse.
3. `history_descends`: both, of every scene that a history has made.
-/

namespace Espalier.Scene

variable {α : Type} [Scalar α] {s : Scene α} {p c id x : NodeId}
  {pending visited before after : List NodeId}

/-! ## The order of a walk -/

theorem traverses_flatMap (hf : Forest s) (ids : List NodeId) :
    s.Traverses ids (ids.flatMap fun c => c :: s.descendants c) := by
  induction ids with
  | nil => exact .done
  | cons id ids ih => exact .visit (traverses_append (traverses_descendants hf id) ih)

/-- Below a node are its children, in their order, each with what is below it right behind. -/
theorem descendants_eq_flatMap (hf : Forest s) (id : NodeId) :
    s.descendants id = (s.children id).flatMap fun c => c :: s.descendants c :=
  traverses_unique (traverses_descendants hf id) (traverses_flatMap hf _)

/-- Behind a node a walk visits first what is below the node. -/
theorem prefix_of_traverses (hf : Forest s) (h : s.Traverses pending (before ++ x :: after)) :
    s.descendants x <+: after := by
  generalize hvisited : before ++ x :: after = visited at h
  induction h generalizing before with
  | done => simp at hvisited
  | @visit id pending visited h ih =>
    cases before with
    | cons _ before =>
      exact ih (List.cons.inj hvisited).2
    | nil =>
      obtain ⟨rfl, rfl⟩ := List.cons.inj hvisited
      obtain ⟨rest, hrest⟩ := exists_traverses hf pending
      rw [traverses_unique h (traverses_append (traverses_descendants hf x) hrest)]
      exact List.prefix_append _ _

/-- No node is visited before one that is above it. Otherwise the walk would come to it again, with
what is below that one. -/
theorem not_mem_behind (hf : Forest s) (h : s.descendants id = before ++ x :: after) :
    ∀ a ∈ s.ancestors x, a ∉ after := by
  intro a ha hmem
  obtain ⟨middle, rest, rfl⟩ := List.append_of_mem hmem
  have hsplit : s.descendants id = (before ++ x :: middle) ++ a :: rest := by
    rw [h, List.append_assoc, List.cons_append]
  have hbelow : s.descendants a <+: rest :=
    prefix_of_traverses hf (hsplit ▸ traverses_descendants hf id)
  have hagain : x ∈ a :: rest :=
    List.mem_cons_of_mem _ (hbelow.subset ((mem_descendants hf).mpr ha))
  have hnodup := (List.nodup_cons.mp (descendants_nodup hf id)).2
  rw [hsplit] at hnodup
  exact (List.nodup_append.mp hnodup).2.2 x (by simp) x hagain rfl

/-! ## Links -/

theorem link_ok_iff : (∃ s', link p c s = .ok () s') ↔ s.linkFailure? p c = none := by
  rw [link]
  cases s.linkFailure? p c <;> simp

theorem parent?_linked_of_contains (hp : s.contains p) (hc : s.contains c) (j : NodeId) :
    (s.linked p c).parent? j = if j = c then some p else s.parent? j := by
  rw [parent?, node_linked_of_contains hp hc]

theorem children_linked_of_contains (hp : s.contains p) (hc : s.contains c) (j : NodeId) :
    (s.linked p c).children j = if j = p then s.children j ++ [c] else s.children j := by
  rw [children, node_linked_of_contains hp hc]

/-- A climb from a node goes round once the node is put under itself or under one below it. -/
theorem closes_cycle (hf : Forest s) (hp : s.contains p) (hc : s.contains c)
    (hfree : s.parent? c = none) (hbelow : p = c ∨ p ∈ s.descendants c) :
    Relation.TransGen (fun a b => (s.linked p c).parent? a = some b) c c := by
  have hparent := parent?_linked_of_contains hp hc
  have hfirst : (s.linked p c).parent? c = some p := by rw [hparent, if_pos rfl]
  rcases hbelow with rfl | hbelow
  · exact .single hfirst
  · -- The climb from the parent to the child makes no step at the child, which is free.
    have hstep : ∀ a b, s.parent? a = some b → (s.linked p c).parent? a = some b := by
      intro a b hab
      have hne : a ≠ c := fun h => by rw [h, hfree] at hab; cases hab
      rw [hparent, if_neg hne, hab]
    have hclimb := hf.mem_ancestors.mp ((mem_descendants hf).mp hbelow)
    exact .head hfirst (Relation.TransGen.mono hstep p c hclimb)

/-- No climb in a forest goes round. -/
theorem Forest.not_cycle (hf : Forest s) :
    ¬Relation.TransGen (fun a b => s.parent? a = some b) c c := fun h =>
  (List.nodup_cons.mp (ascends_nodup (hf.ascends_ancestors c))).1 (hf.mem_ancestors.mpr h)

/-- A node that is not there cannot be a child. -/
theorem contains_of_linked_forest (hp : s.contains p) (h : Forest (s.linked p c)) :
    s.contains c := by
  by_contra hc
  have hp' : (s.modify c fun n => { n with parent := some p }).contains p := by
    rw [contains_iff, size_modify, ← contains_iff]
    exact hp
  have hmem : c ∈ (s.linked p c).children p := by
    rw [linked, children, node_modify, if_pos ⟨rfl, hp'⟩]
    simp
  have hparent := contains_of_parent (h.mem_children.mp hmem)
  rw [contains_iff, size_linked, ← contains_iff] at hparent
  exact hc hparent

/-- The checks let pass exactly the links that keep a forest. -/
theorem linked_forest_iff (hf : Forest s) (hp : s.contains p) :
    Forest (s.linked p c) ↔ s.linkFailure? p c = none := by
  refine ⟨fun h => ?_, linked_forest hf⟩
  have hc := contains_of_linked_forest hp h
  have hparent := parent?_linked_of_contains hp hc
  have hroot : c ≠ root := by
    rintro rfl
    have htop := h.root_top
    rw [hparent, if_pos rfl] at htop
    cases htop
  have hfree : s.parent? c = none := by
    -- With another parent the child would be in two places, or twice in one.
    by_contra hparent'
    obtain ⟨q, hq⟩ := Option.ne_none_iff_exists'.mp hparent'
    have hold := hf.links q c
    have hnew := h.links q c
    rw [hparent, if_pos rfl, children_linked_of_contains hp hc] at hnew
    rw [if_pos hq] at hold
    by_cases hqp : q = p
    · simp [hqp] at hold hnew
      omega
    · simp [hqp, Ne.symm hqp] at hnew
      omega
  have habove : p ≠ c ∧ c ∉ s.ancestors p := by
    rw [← not_or, ← mem_descendants hf]
    exact fun hbelow => h.not_cycle (closes_cycle hf hp hc hfree hbelow)
  exact linkFailure?_eq_none_iff.mpr ⟨habove.1, hroot, hc, hfree, hp, habove.2⟩

/-! ## Histories -/

/-- In any scene that a history has made, the descendants of a node are the nodes that it is above,
each of them once, with every subtree in one block behind its top and the subtrees of siblings in
the order of the siblings. Two of its nodes are linked if and only if the child is not the root, has
no parent, and the parent is neither the child nor below it. These are the links that keep a forest:
any other gives the root a parent, or the child a second one, or closes a cycle. -/
theorem history_descends (es : List (Edit α)) :
    let s : Scene α := empty.after es
    (∀ id x, (s.descendants id).count x = if id ∈ s.ancestors x then 1 else 0) ∧
    (∀ id, s.descendants id = (s.children id).flatMap fun c => c :: s.descendants c) ∧
    (∀ id before x after, s.descendants id = before ++ x :: after →
      s.descendants x <+: after ∧ ∀ a ∈ s.ancestors x, a ∉ after) ∧
    ∀ p c, s.contains p → s.contains c →
      ((∃ s', link p c s = .ok () s') ↔
        c ≠ root ∧ s.parent? c = none ∧ p ≠ c ∧ p ∉ s.descendants c) ∧
      ((∃ s', link p c s = .ok () s') ↔ Forest (s.linked p c)) ∧
      ((¬∃ s', link p c s = .ok () s') → c = root ∨ (∃ q, s.parent? c = some q) ∨
        Relation.TransGen (fun a b => (s.linked p c).parent? a = some b) c c) := by
  intro s
  have hf : Forest s := after_forest es
  refine ⟨fun id x => ?_, descendants_eq_flatMap hf, fun id before x after h => ?_,
    fun p c hp hc => ?_⟩
  · rw [count_descendants hf]
    exact (List.nodup_cons.mp (ascends_nodup (hf.ascends_ancestors x))).2.count
  · exact ⟨prefix_of_traverses hf (h ▸ traverses_descendants hf id), not_mem_behind hf h⟩
  have hok : (∃ s', link p c s = .ok () s') ↔
      c ≠ root ∧ s.parent? c = none ∧ p ≠ c ∧ p ∉ s.descendants c := by
    rw [link_ok_iff, linkFailure?_eq_none_iff, mem_descendants hf]
    constructor
    · rintro ⟨hself, hroot, -, hfree, -, hcycle⟩
      exact ⟨hroot, hfree, hself, hcycle⟩
    · rintro ⟨hroot, hfree, hself, hcycle⟩
      exact ⟨hself, hroot, hc, hfree, hp, hcycle⟩
  refine ⟨hok, link_ok_iff.trans (linked_forest_iff hf hp).symm, fun hrefused => ?_⟩
  by_contra hnone
  rw [not_or, not_or, not_exists] at hnone
  obtain ⟨hroot, hparent, hcycle⟩ := hnone
  have hfree : s.parent? c = none := Option.eq_none_iff_forall_ne_some.mpr hparent
  refine hrefused (hok.mpr ⟨hroot, hfree, ?_⟩)
  rw [← not_or]
  exact fun hbelow => hcycle (closes_cycle hf hp hc hfree hbelow)

end Espalier.Scene
