import Espalier.Proofs.Scene.Forest
import Mathlib.Algebra.GroupWithZero.Nat

/-!
# Walks through a scene end

Climbs, walks down and products of frames are loops that follow links until there are none left.
The scene bounds each by its size; here each is also described without a bound, as a relation that
holds only when the loop has come to its end, and in a forest the bounded walk is the unbounded
one.

Results:
1. `count_descendants`: a node stands among the descendants of another as often as that one stands
   among its ancestors, which is once or never.
2. `traverses_descendants`, `places_worldMatrix`: the walk down ends with nothing pending, and the
   product of frames ends at a top.
3. `history_wellLinked`: after any history of edits the links are consistent and all walks end.
-/

namespace Espalier.Scene

variable {α : Type} [Scalar α]

/-! ## Walking down -/

/-- `Traverses s pending visited`: visiting the pending nodes, each before its children and the
children before the nodes behind it, visits `visited` in this order, and then nothing is pending. -/
inductive Traverses (s : Scene α) : List NodeId → List NodeId → Prop
  | done : Traverses s [] []
  | visit {id : NodeId} {pending visited : List NodeId} :
      Traverses s (s.children id ++ pending) visited → Traverses s (id :: pending) (id :: visited)

theorem traverses_append {s : Scene α} {a b v w : List NodeId} (ha : s.Traverses a v)
    (hb : s.Traverses b w) : s.Traverses (a ++ b) (v ++ w) := by
  induction ha with
  | done => exact hb
  | visit _ ih =>
    rw [List.append_assoc] at ih
    exact .visit ih

theorem traverses_unique {s : Scene α} {pending visited visited' : List NodeId}
    (h : s.Traverses pending visited) (h' : s.Traverses pending visited') : visited = visited' := by
  induction h generalizing visited' with
  | done => cases h'; rfl
  | visit _ ih =>
    cases h' with
    | visit h' => rw [ih h']

theorem preorder_of_traverses {s : Scene α} {pending visited : List NodeId}
    (h : s.Traverses pending visited) {steps : Nat} (hsteps : visited.length ≤ steps) :
    s.preorder steps pending = visited := by
  induction h generalizing steps with
  | done => cases steps <;> rfl
  | visit _ ih =>
    cases steps with
    | zero => simp at hsteps
    | succ steps => rw [preorder, ih (Nat.le_of_succ_le_succ hsteps)]

/-! ## How often a walk visits a node -/

/-- How often the nodes `as` stand in `ids`, all counted together. -/
def meets (ids as : List NodeId) : Nat := (as.map fun a => ids.count a).sum

theorem meets_cons (ids : List NodeId) (a : NodeId) (as : List NodeId) :
    meets ids (a :: as) = ids.count a + meets ids as := by
  simp [meets]

theorem meets_nil (as : List NodeId) : meets [] as = 0 := by
  induction as with
  | nil => rfl
  | cons a as ih => rw [meets_cons, ih, List.count_nil]

theorem meets_append (ids ids' as : List NodeId) :
    meets (ids ++ ids') as = meets ids as + meets ids' as := by
  induction as with
  | nil => rfl
  | cons a as ih =>
    simp only [meets_cons, List.count_append, ih]
    omega

theorem meets_singleton (id : NodeId) (as : List NodeId) : meets [id] as = as.count id := by
  induction as with
  | nil => rfl
  | cons a as ih =>
    rw [meets_cons, ih, List.count_singleton, List.count_cons, Nat.add_comm]
    by_cases h : id = a <;> simp [h, Ne.symm]

/-- The nodes on a climb whose parent is `id` are those right before `id`. -/
theorem meets_children {s : Scene α} (hf : Forest s) (id : NodeId) {x : NodeId}
    {as : List NodeId} (h : s.Ascends x as) :
    meets (s.children id) (x :: as) = as.count id := by
  induction h with
  | top h => simp [meets, hf.links, h]
  | @step x p as hp _ ih =>
    rw [meets_cons, ih, hf.links, hp, List.count_cons, Nat.add_comm]
    by_cases h : p = id <;> simp [h]

/-- A walk visits a node once for every pending node that the node is below or equal to. -/
theorem count_of_traverses {s : Scene α} (hf : Forest s) {pending visited : List NodeId}
    (h : s.Traverses pending visited) (x : NodeId) :
    visited.count x = meets pending (x :: s.ancestors x) := by
  induction h with
  | done => rw [meets_nil, List.count_nil]
  | @visit id pending visited _ ih =>
    have hsplit : meets (id :: pending) (x :: s.ancestors x) =
        (x :: s.ancestors x).count id + meets pending (x :: s.ancestors x) := by
      rw [← meets_singleton, ← meets_append, List.singleton_append]
    rw [hsplit, List.count_cons, ih, meets_append,
      meets_children hf id (hf.ascends_ancestors x), List.count_cons]
    by_cases h : id = x
    · subst h
      simp only [beq_self_eq_true, if_true]
      omega
    · simp only [beq_iff_eq, h, Ne.symm h, if_false]
      omega

/-! ## Walks end -/

theorem exists_traverses_of_each {s : Scene α} {ids : List NodeId}
    (h : ∀ id ∈ ids, ∃ visited, s.Traverses [id] visited) : ∃ visited, s.Traverses ids visited := by
  induction ids with
  | nil => exact ⟨[], .done⟩
  | cons id ids ih =>
    obtain ⟨v, hv⟩ := h id List.mem_cons_self
    obtain ⟨w, hw⟩ := ih fun id hid => h id (List.mem_cons_of_mem _ hid)
    exact ⟨v ++ w, traverses_append hv hw⟩

/-- A walk from one node ends: its children have one ancestor more, and no node has as many
ancestors as the scene has nodes. -/
theorem exists_traverses_singleton {s : Scene α} (hf : Forest s) (room : Nat) {id : NodeId}
    (h : s.size ≤ room + (s.ancestors id).length) : ∃ visited, s.Traverses [id] visited := by
  -- `room` is how many more ancestors a node below could have.
  induction room generalizing id with
  | zero =>
    have := hf.length_lt_size (hf.ascends_ancestors id)
    omega
  | succ room ih =>
    have hchildren : ∀ c ∈ s.children id, ∃ visited, s.Traverses [c] visited := by
      intro c hc
      apply ih
      rw [hf.ancestors_of_parent (hf.mem_children.mp hc), List.length_cons]
      omega
    obtain ⟨visited, hv⟩ := exists_traverses_of_each hchildren
    exact ⟨id :: visited, .visit (by rwa [List.append_nil])⟩

theorem exists_traverses {s : Scene α} (hf : Forest s) (ids : List NodeId) :
    ∃ visited, s.Traverses ids visited :=
  exists_traverses_of_each fun _ _ => exists_traverses_singleton hf s.size (Nat.le_add_right _ _)

theorem count_ancestors_le {s : Scene α} (hf : Forest s) (id x : NodeId) :
    (s.ancestors x).count id ≤ 1 := by
  have hnodup := List.nodup_cons.mp (ascends_nodup (hf.ascends_ancestors x))
  exact List.nodup_iff_count.mp hnodup.2 id

theorem contains_of_mem_ancestors {s : Scene α} {id x : NodeId} (h : id ∈ s.ancestors x) :
    s.contains x := by
  cases hp : s.parent? x with
  | none =>
    rw [ancestors] at h
    cases hsize : s.size <;> simp [hsize, climb, hp] at h
  | some p => exact contains_of_parent hp

/-- The walk down from a node ends, and before its steps are used up. -/
theorem traverses_descendants {s : Scene α} (hf : Forest s) (id : NodeId) :
    s.Traverses (s.children id) (s.descendants id) := by
  obtain ⟨visited, hv⟩ := exists_traverses hf (s.children id)
  have hcount : ∀ x, visited.count x = (s.ancestors x).count id := fun x => by
    rw [count_of_traverses hf hv, meets_children hf id (hf.ascends_ancestors x)]
  have hnodup : visited.Nodup := List.nodup_iff_count.mpr fun x => by
    rw [hcount]
    exact count_ancestors_le hf id x
  have hmem : ∀ x ∈ visited, s.contains x := fun x hx => by
    rw [← List.count_pos_iff, hcount, List.count_pos_iff] at hx
    exact contains_of_mem_ancestors hx
  rw [descendants, preorder_of_traverses hv (length_le_size hnodup hmem)]
  exact hv

/-- The walk down from a node visits each node as often as climbing from that one passes the
first. -/
theorem count_descendants {s : Scene α} (hf : Forest s) (id x : NodeId) :
    (s.descendants id).count x = (s.ancestors x).count id := by
  rw [count_of_traverses hf (traverses_descendants hf id),
    meets_children hf id (hf.ascends_ancestors x)]

theorem mem_descendants {s : Scene α} (hf : Forest s) {id x : NodeId} :
    x ∈ s.descendants id ↔ id ∈ s.ancestors x := by
  rw [← List.count_pos_iff, count_descendants hf, List.count_pos_iff]

theorem exists_parent_of_mem_descendants {s : Scene α} (hf : Forest s) {id x : NodeId}
    (h : x ∈ s.descendants id) : ∃ p, s.parent? x = some p := by
  cases hp : s.parent? x with
  | none =>
    rw [mem_descendants hf, hf.ancestors_of_top hp] at h
    cases h
  | some p => exact ⟨p, rfl⟩

/-- A node and its descendants are different nodes. -/
theorem descendants_nodup {s : Scene α} (hf : Forest s) (id : NodeId) :
    (id :: s.descendants id).Nodup := by
  refine List.nodup_cons.mpr ⟨fun h => ?_, List.nodup_iff_count.mpr fun x => ?_⟩
  · have hnodup := ascends_nodup (hf.ascends_ancestors id)
    exact (List.nodup_cons.mp hnodup).1 ((mem_descendants hf).mp h)
  · rw [count_descendants hf]
    exact count_ancestors_le hf id x

/-! ## Frames in space -/

/-- `Places s id m`: the frames from the top of the tree of `id` down to `id` multiply to `m`, from
the top on. -/
inductive Places (s : Scene α) : NodeId → Mat4 α → Prop
  | top {id : NodeId} : s.parent? id = none → Places s id (s.localMatrix id)
  | under {id p : NodeId} {m : Mat4 α} :
      s.parent? id = some p → Places s p m → Places s id (m * s.localMatrix id)

theorem worldMatrix_of_top {s : Scene α} (hf : Forest s) {id : NodeId}
    (h : s.parent? id = none) : s.worldMatrix id = s.localMatrix id := by
  rw [worldMatrix, hf.ancestors_of_top h]
  rfl

theorem worldMatrix_of_parent {s : Scene α} (hf : Forest s) {id p : NodeId}
    (h : s.parent? id = some p) : s.worldMatrix id = s.worldMatrix p * s.localMatrix id := by
  rw [worldMatrix, hf.ancestors_of_parent h]
  rfl

theorem places_worldMatrix {s : Scene α} (hf : Forest s) (id : NodeId) :
    s.Places id (s.worldMatrix id) := by
  obtain ⟨as, h⟩ := hf.ascends id
  induction h with
  | top h =>
    rw [worldMatrix_of_top hf h]
    exact .top h
  | step h _ ih =>
    rw [worldMatrix_of_parent hf h]
    exact .under h ih

/-! ## Scenes after a history -/

/-- The links of a scene are consistent and every walk along them ends: the bounded loops
`ancestors`, `descendants` and `worldMatrix` are the unbounded ones. -/
structure WellLinked (s : Scene α) : Prop where
  /-- A node is once among the children of its parent and not at all among those of another. -/
  links : ∀ p c, (s.children p).count c = if s.parent? c = some p then 1 else 0
  root_top : s.parent? root = none
  ends_mem : ∀ p c, c ∈ s.children p ∨ s.parent? c = some p → s.contains p ∧ s.contains c
  /-- A climb reaches a node without a parent in fewer steps than the scene has nodes. -/
  climb_ends : ∀ id, ∃ as, s.Ascends id as ∧ as.length < s.size
  ancestors_end : ∀ id, s.Ascends id (s.ancestors id)
  descendants_end : ∀ id, s.Traverses (s.children id) (s.descendants id)
  world_ends : ∀ id, s.Places id (s.worldMatrix id)
  /-- The check for cycles finds the nodes above, however far. -/
  cycle_check : ∀ p c, c ∈ s.ancestors p ↔ Relation.TransGen (fun a b => s.parent? a = some b) p c

theorem forest_wellLinked {s : Scene α} (hf : Forest s) : WellLinked s where
  links := hf.links
  root_top := hf.root_top
  ends_mem p c h := by
    have hp : s.parent? c = some p := h.elim hf.mem_children.mp id
    exact ⟨hf.parent_mem c p hp, contains_of_parent hp⟩
  climb_ends id := ⟨_, hf.ascends_ancestors id, hf.length_lt_size (hf.ascends_ancestors id)⟩
  ancestors_end := hf.ascends_ancestors
  descendants_end := traverses_descendants hf
  world_ends := places_worldMatrix hf
  cycle_check _ _ := hf.mem_ancestors

theorem after_forest (es : List (Edit α)) : Forest ((empty : Scene α).after es) :=
  evolves_forest (after_evolves es empty) empty_forest

/-- After any history of edits, refused ones included, the links of the scene are consistent and
every walk along them ends. So does the check for cycles that a hung leaf has to pass, which runs
while the leaf stands in the scene without a link. -/
theorem history_wellLinked (es : List (Edit α)) :
    WellLinked ((empty : Scene α).after es) ∧
    ∀ kind t, WellLinked (((empty : Scene α).after es).push (.isolated kind t)) :=
  ⟨forest_wellLinked (after_forest es),
    fun kind t => forest_wellLinked (push_forest (after_forest es) kind t)⟩

end Espalier.Scene
