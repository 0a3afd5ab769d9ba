import Espalier.Proofs.Scene.Change

/-!
# The links of a scene make a forest

A link is stored twice, as the parent of a node and among the children of another, and ancestors
are found by climbing. `Forest` says that the two agree and that every climb ends. It is an
invariant of histories: the only change that touches links is guarded by a climb, which the
invariant itself makes end.

Results:
1. `ascends_ancestors`: in a forest a climb ends after fewer steps than the scene has nodes, so
   `ancestors`, which stops after that many, stops nowhere else than at a top.
2. `evolves_forest`: a scene that evolves from a forest is a forest.
-/

namespace Espalier.Scene

variable {α : Type} [Scalar α]

/-! ## Climbing -/

/-- `Ascends s id as`: climbing from `id` passes the nodes `as`, nearest first, and ends at a node
without a parent. -/
inductive Ascends (s : Scene α) : NodeId → List NodeId → Prop
  | top {id : NodeId} : s.parent? id = none → Ascends s id []
  | step {id p : NodeId} {as : List NodeId} :
      s.parent? id = some p → Ascends s p as → Ascends s id (p :: as)

theorem ascends_unique {s : Scene α} {id : NodeId} {as bs : List NodeId} (ha : s.Ascends id as)
    (hb : s.Ascends id bs) : as = bs := by
  induction ha generalizing bs with
  | top h =>
    cases hb with
    | top _ => rfl
    | step h' _ => rw [h] at h'; cases h'
  | step h _ ih =>
    cases hb with
    | top h' => rw [h] at h'; cases h'
    | step h' hb =>
      rw [h] at h'
      cases h'
      rw [ih hb]

/-- The climb from a node that another climb passes is the rest of that climb. -/
theorem ascends_of_append {s : Scene α} {id a : NodeId} {before rest : List NodeId}
    (h : s.Ascends id (before ++ a :: rest)) : s.Ascends a rest := by
  induction before generalizing id with
  | nil => cases h with | step _ h => exact h
  | cons b before ih => cases h with | step _ h => exact ih h

/-- A climb passes no node twice: the climb from its second visit would be as long as that from
the first. -/
theorem ascends_nodup {s : Scene α} {id : NodeId} {as : List NodeId} (h : s.Ascends id as) :
    (id :: as).Nodup := by
  induction h with
  | top _ => simp
  | @step id p as hp h ih =>
    refine List.nodup_cons.mpr ⟨fun hmem => ?_, ih⟩
    obtain ⟨before, rest, hsplit⟩ := List.append_of_mem hmem
    have hstart : s.Ascends id (p :: as) := .step hp h
    have hagain : s.Ascends id rest := ascends_of_append (hsplit ▸ hstart)
    have hlen := congrArg List.length (ascends_unique hstart hagain)
    have hlen' := congrArg List.length hsplit
    simp only [List.length_cons, List.length_append] at hlen hlen'
    omega

theorem climb_of_ascends {s : Scene α} {id : NodeId} {as : List NodeId} (h : s.Ascends id as)
    {steps : Nat} (hsteps : as.length ≤ steps) : s.climb steps id = as := by
  induction h generalizing steps with
  | top h => cases steps <;> simp [climb, h]
  | step hp _ ih =>
    cases steps with
    | zero => simp at hsteps
    | succ steps => simp [climb, hp, ih (Nat.le_of_succ_le_succ hsteps)]

/-- Parents that stay parents keep every climb that reaches its top at the same node. -/
theorem ascends_congr {s s' : Scene α} (hp : ∀ id, s'.parent? id = s.parent? id) {id : NodeId}
    {as : List NodeId} (h : s.Ascends id as) : s'.Ascends id as := by
  induction h with
  | top h => exact .top (by rw [hp, h])
  | step h _ ih => exact .step (by rw [hp, h]) ih

/-! ## Forests -/

/-- The links of a scene are consistent and climb to a top. -/
structure Forest (s : Scene α) : Prop where
  /-- A node is once among the children of its parent, and nowhere else. -/
  links : ∀ p c, (s.children p).count c = if s.parent? c = some p then 1 else 0
  root_mem : s.contains root
  root_top : s.parent? root = none
  parent_mem : ∀ c p, s.parent? c = some p → s.contains p
  ascends : ∀ id, ∃ as, s.Ascends id as

namespace Forest

variable {s : Scene α}

theorem mem_children (hf : Forest s) {p c : NodeId} :
    c ∈ s.children p ↔ s.parent? c = some p := by
  rw [← List.count_pos_iff, hf.links]
  split <;> simp_all

theorem contains_of_ascends (hf : Forest s) {id : NodeId} {as : List NodeId}
    (h : s.Ascends id as) : ∀ a ∈ as, s.contains a := by
  induction h with
  | top _ => simp
  | step hp _ ih =>
    intro a ha
    rcases List.mem_cons.mp ha with rfl | ha
    · exact hf.parent_mem _ _ hp
    · exact ih a ha

theorem length_lt_size (hf : Forest s) {id : NodeId} {as : List NodeId} (h : s.Ascends id as) :
    as.length < s.size := by
  cases h with
  | top _ => exact Nat.lt_of_le_of_lt (Nat.zero_le _) (contains_iff.mp hf.root_mem)
  | @step _ p as hp h =>
    have hall : ∀ a ∈ id :: p :: as, s.contains a := by
      intro a ha
      rcases List.mem_cons.mp ha with rfl | ha
      · exact contains_of_parent hp
      · exact hf.contains_of_ascends (.step hp h) a ha
    exact length_le_size (ascends_nodup (.step hp h)) hall

/-- In a forest a climb ends before its steps are used up. -/
theorem ascends_ancestors (hf : Forest s) (id : NodeId) : s.Ascends id (s.ancestors id) := by
  obtain ⟨as, h⟩ := hf.ascends id
  have heq : s.ancestors id = as := climb_of_ascends h (Nat.le_of_lt (hf.length_lt_size h))
  rwa [heq]

theorem ancestors_eq (hf : Forest s) {id : NodeId} {as : List NodeId} (h : s.Ascends id as) :
    s.ancestors id = as :=
  ascends_unique (hf.ascends_ancestors id) h

theorem ancestors_of_top (hf : Forest s) {id : NodeId} (h : s.parent? id = none) :
    s.ancestors id = [] :=
  hf.ancestors_eq (.top h)

theorem ancestors_of_parent (hf : Forest s) {id p : NodeId} (h : s.parent? id = some p) :
    s.ancestors id = p :: s.ancestors p :=
  hf.ancestors_eq (.step h (hf.ascends_ancestors p))

/-- The ancestors of a node are its parent, the parent of that one, and so on. -/
theorem mem_ancestors (hf : Forest s) {id a : NodeId} :
    a ∈ s.ancestors id ↔ Relation.TransGen (fun c p => s.parent? c = some p) id a := by
  constructor
  · generalize hs : s.ancestors id = as
    have h := hs ▸ hf.ascends_ancestors id
    clear hs
    intro ha
    induction h with
    | top _ => cases ha
    | step hp _ ih =>
      rcases List.mem_cons.mp ha with rfl | ha
      · exact .single hp
      · exact .head hp (ih ha)
  · intro h
    induction h using Relation.TransGen.head_induction_on with
    | single hp => simp [hf.ancestors_of_parent hp]
    | head hp _ ih => simp [hf.ancestors_of_parent hp, ih]

end Forest

/-! ## Changes keep the forest -/

theorem empty_forest : Forest (empty : Scene α) := by
  have hnode : ∀ id, (empty : Scene α).node id = .isolated .structural .identity := by
    intro id
    cases id with
    | zero => rfl
    | succ id => rfl
  refine ⟨fun p c => ?_, rfl, ?_, fun c p h => ?_, fun id => ⟨[], .top ?_⟩⟩
  · simp [children, parent?, hnode, Node.isolated]
  · rw [parent?, hnode]; rfl
  · rw [parent?, hnode] at h; cases h
  · rw [parent?, hnode]; rfl

/-- A change that leaves parents and children alone keeps a forest. -/
theorem forest_congr {s s' : Scene α} (hf : Forest s) (hsize : s.size ≤ s'.size)
    (hp : ∀ id, s'.parent? id = s.parent? id) (hc : ∀ id, s'.children id = s.children id) :
    Forest s' where
  links p c := by rw [hc, hp, hf.links]
  root_mem := contains_iff.mpr (Nat.lt_of_lt_of_le (contains_iff.mp hf.root_mem) hsize)
  root_top := by rw [hp, hf.root_top]
  parent_mem c p h := by
    rw [hp] at h
    exact contains_iff.mpr (Nat.lt_of_lt_of_le (contains_iff.mp (hf.parent_mem c p h)) hsize)
  ascends id := by
    obtain ⟨as, h⟩ := hf.ascends id
    exact ⟨as, ascends_congr hp h⟩

/-- A node that is not there reads as isolated, so a new one that is changes no links. -/
theorem links_push (s : Scene α) (kind : NodeKind) (t : Transform α) (id : NodeId) :
    (s.push (.isolated kind t)).parent? id = s.parent? id ∧
      (s.push (.isolated kind t)).children id = s.children id := by
  have hnew : s.node s.size = default := node_of_not_contains (by simp [contains_iff])
  rw [parent?, parent?, children, children, node_push]
  split
  next h =>
    rw [h, hnew]
    exact ⟨rfl, rfl⟩
  · exact ⟨rfl, rfl⟩

theorem push_forest {s : Scene α} (hf : Forest s) (kind : NodeKind) (t : Transform α) :
    Forest (s.push (.isolated kind t)) :=
  forest_congr hf (by simp) (fun id => (links_push s kind t id).1)
    fun id => (links_push s kind t id).2

theorem modify_forest {s : Scene α} (hf : Forest s) (id : NodeId) {f : Node α → Node α}
    (hkeeps : ∀ n, Node.Keeps n (f n)) : Forest (s.modify id f) := by
  refine forest_congr hf (by simp) (fun j => ?_) (fun j => ?_)
  · rw [parent?, parent?, node_modify]
    split
    · exact (hkeeps _).parent
    · rfl
  · rw [children, children, node_modify]
    split
    · exact (hkeeps _).children
    · rfl

/-- A climb that does not pass the new child goes on as before. -/
theorem ascends_linked {s : Scene α} {p c : NodeId} (hl : s.linkFailure? p c = none)
    {id : NodeId} {as : List NodeId} (h : s.Ascends id as) (hid : id ≠ c) (has : c ∉ as) :
    (s.linked p c).Ascends id as := by
  induction h with
  | top h => exact .top (by rw [parent?_linked hl, if_neg hid, h])
  | step h _ ih =>
    rw [List.mem_cons, not_or] at has
    exact .step (by rw [parent?_linked hl, if_neg hid, h]) (ih (Ne.symm has.1) has.2)

/-- A guarded link keeps a forest. The climb from the new parent avoids the child, so the climb
from the child ends one step later, and so does every climb that passes the child. -/
theorem linked_forest {s : Scene α} (hf : Forest s) {p c : NodeId}
    (hl : s.linkFailure? p c = none) : Forest (s.linked p c) := by
  obtain ⟨hne, hroot, hc, hfree, hp, hcycle⟩ := linkFailure?_eq_none hl
  have hparent : (s.linked p c).Ascends p (s.ancestors p) :=
    ascends_linked hl (hf.ascends_ancestors p) hne hcycle
  have hchild : (s.linked p c).Ascends c (p :: s.ancestors p) :=
    .step (by rw [parent?_linked hl, if_pos rfl]) hparent
  refine ⟨fun q d => ?_, ?_, ?_, fun d q h => ?_, fun id => ?_⟩
  -- Only `c` gets a parent and only `p` a child, and `c` was no child before as it had no parent.
  · rw [children_linked hl, parent?_linked hl]
    by_cases hd : d = c
    · subst hd
      have hnone : (s.children q).count d = 0 := by simp [hf.links, hfree]
      by_cases hq : q = p
      · subst hq
        simp [hnone]
      · simp [hq, Ne.symm hq, hnone]
    · have hcount := hf.links q d
      by_cases hq : q = p <;> simp [hq, hd, Ne.symm hd] at hcount ⊢ <;> exact hcount
  · rw [contains_iff, size_linked, ← contains_iff]
    exact hf.root_mem
  · rw [parent?_linked hl, if_neg (Ne.symm hroot), hf.root_top]
  · rw [contains_iff, size_linked, ← contains_iff]
    rw [parent?_linked hl] at h
    split at h
    · cases h; exact hp
    · exact hf.parent_mem d q h
  -- A climb that ended at `c` goes on through `p`; every other ends where it did.
  · obtain ⟨as, h⟩ := hf.ascends id
    induction h with
    | @top id h =>
      by_cases hid : id = c
      · subst hid
        exact ⟨_, hchild⟩
      · exact ⟨[], .top (by rw [parent?_linked hl, if_neg hid, h])⟩
    | @step id q as h _ ih =>
      obtain ⟨as', h'⟩ := ih
      have hid : id ≠ c := fun e => by rw [e, hfree] at h; cases h
      exact ⟨_, .step (by rw [parent?_linked hl, if_neg hid, h]) h'⟩

/-- A scene that evolves from a forest is a forest. -/
theorem evolves_forest {s s' : Scene α} (h : Evolves s s') (hf : Forest s) : Forest s' := by
  refine evolves_invariant (fun s₁ s₂ hc hf => ?_) h hf
  cases hc with
  | grow kind t => exact push_forest hf kind t
  | adjust id f hkeeps => exact modify_forest hf id hkeeps
  | link p c hl => exact linked_forest hf hl

end Espalier.Scene
