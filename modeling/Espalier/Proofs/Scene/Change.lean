import Espalier.Scene.Edit
import Mathlib.Logic.Relation
import Mathlib.Tactic.ByContra

/-!
# What an edit does to a scene

There are many operations on scenes, but each is made of three changes: an isolated node at the
end of the list, a node adjusted without its links and its kind, and a link that the checks let
pass. `Change` is one of them and `Evolves` any number in a row, so a law of scenes is proved for
each change and holds of every history.

Results:
1. `register_adjusts` and its kin: an edit of one node adjusts that node or is refused.
2. `edit_evolves`: an edit, also a refused one, leaves a scene that evolved from the old one.
3. `evolves_extends`: a scene only grows. Nodes keep their kind, their parent if they have one and
   their named positions, and children are only appended.
4. `pushes_eq_since`: the nodes that an edit adds are those from the old size on.
-/

namespace Espalier

/-- The state that an action leaves, whether it succeeded or not. -/
def final {ε σ β : Type} : EStateM.Result ε σ β → σ
  | .ok _ s => s
  | .error _ s => s

variable {α : Type}

/-! ## Reading changed scenes -/

namespace Scene

@[simp] theorem size_push (s : Scene α) (n : Node α) : (s.push n).size = s.size + 1 := by
  simp [size, push]

@[simp] theorem size_modify (s : Scene α) (id : NodeId) (f : Node α → Node α) :
    (s.modify id f).size = s.size := by
  simp [size, modify]

@[simp] theorem size_linked (s : Scene α) (p c : NodeId) : (s.linked p c).size = s.size := by
  simp [linked]

theorem since_self (s : Scene α) : s.since s.size = [] := by
  simp [since]

/-- The nodes of two stretches in a row. -/
theorem since_append {s s' : Scene α} {mark : Nat} (h : mark ≤ s.size) (h' : s.size ≤ s'.size) :
    s.since mark ++ s'.since s.size = s'.since mark := by
  have happend := List.range'_append_1 (s := mark) (m := s.size - mark) (n := s'.size - s.size)
  have hmid : mark + (s.size - mark) = s.size := by omega
  have hlen : s.size - mark + (s'.size - s.size) = s'.size - mark := by omega
  rw [hmid, hlen] at happend
  exact happend

theorem mem_since {s : Scene α} {mark id : Nat} : id ∈ s.since mark ↔ mark ≤ id ∧ id < s.size := by
  rw [since, List.mem_range'_1]
  omega

theorem contains_iff {s : Scene α} {id : NodeId} : s.contains id = true ↔ id < s.size := by
  simp [contains]

/-- Different nodes of a scene are no more than its size. -/
theorem length_le_size {s : Scene α} {ids : List NodeId} (hnodup : ids.Nodup)
    (hmem : ∀ id ∈ ids, s.contains id) : ids.length ≤ s.size := by
  have hsub : ids ⊆ List.range s.size := fun id hid =>
    List.mem_range.mpr (contains_iff.mp (hmem id hid))
  have hle := hnodup.length_le_of_subset hsub
  rwa [List.length_range] at hle

variable [Scalar α]

theorem node_of_not_contains {s : Scene α} {id : NodeId} (h : ¬ s.contains id) :
    s.node id = default := by
  have hle : s.nodes.size ≤ id := Nat.le_of_not_lt fun hlt => h (contains_iff.mpr hlt)
  rw [node, Array.getElem?_eq_none hle]
  rfl

theorem node_push (s : Scene α) (n : Node α) (id : NodeId) :
    (s.push n).node id = if id = s.size then n else s.node id := by
  simp only [node, push, size, Array.getElem?_push]
  by_cases h : id = s.nodes.size <;> simp [h]

theorem node_modify (s : Scene α) (id : NodeId) (f : Node α → Node α) (j : NodeId) :
    (s.modify id f).node j = if id = j ∧ s.contains j then f (s.node j) else s.node j := by
  simp only [node, modify, Array.getElem?_modify, contains_iff, size]
  by_cases hj : j < s.nodes.size
  · by_cases hid : id = j <;> simp [hid, hj]
  · simp [hj]

theorem contains_of_parent {s : Scene α} {id p : NodeId} (h : s.parent? id = some p) :
    s.contains id := by
  by_contra hc
  rw [parent?, node_of_not_contains hc] at h
  cases h

/-- A link passes its checks if both nodes are there, the child is free and not the root, and the
parent is neither the child nor below it. -/
theorem linkFailure?_eq_none_iff {s : Scene α} {p c : NodeId} : s.linkFailure? p c = none ↔
    p ≠ c ∧ c ≠ root ∧ s.contains c ∧ s.parent? c = none ∧ s.contains p ∧
      c ∉ s.ancestors p := by
  constructor
  · intro h
    unfold linkFailure? at h
    split at h
    · cases h
    next hself =>
      split at h
      · cases h
      next hroot =>
        split at h
        · cases h
        next hc =>
          split at h
          · cases h
          next hparent =>
            split at h
            · cases h
            next hp =>
              split at h
              · cases h
              next hcycle =>
                exact ⟨hself, hroot, by simpa using hc, by simpa using hparent, by simpa using hp,
                  hcycle⟩
  · rintro ⟨hself, hroot, hc, hparent, hp, hcycle⟩
    simp [linkFailure?, hself, hroot, hc, hparent, hp, hcycle]

theorem linkFailure?_eq_none {s : Scene α} {p c : NodeId} (h : s.linkFailure? p c = none) :
    p ≠ c ∧ c ≠ root ∧ s.contains c ∧ s.parent? c = none ∧ s.contains p ∧
      c ∉ s.ancestors p :=
  linkFailure?_eq_none_iff.mp h

/-- A link changes the parent of the one node and the children of the other, and nothing else. -/
theorem node_linked_of_contains {s : Scene α} {p c : NodeId} (hp : s.contains p)
    (hc : s.contains c) (j : NodeId) :
    (s.linked p c).node j =
      { s.node j with
        parent := if j = c then some p else s.parent? j
        children := if j = p then s.children j ++ [c] else s.children j } := by
  have hp' : (s.modify c fun n => { n with parent := some p }).contains p := by
    rw [contains_iff, size_modify, ← contains_iff]
    exact hp
  simp only [linked, node_modify, parent?, children]
  by_cases hjp : j = p
  · subst hjp
    by_cases hjc : j = c
    · subst hjc
      simp [hc, hp']
    · simp [hp', hjc, Ne.symm hjc]
  · by_cases hjc : j = c
    · subst hjc
      simp [hc, hjp, Ne.symm hjp]
    · simp [hjp, hjc, Ne.symm hjp, Ne.symm hjc]

theorem node_linked {s : Scene α} {p c : NodeId} (h : s.linkFailure? p c = none) (j : NodeId) :
    (s.linked p c).node j =
      { s.node j with
        parent := if j = c then some p else s.parent? j
        children := if j = p then s.children j ++ [c] else s.children j } := by
  obtain ⟨-, -, hc, -, hp, -⟩ := linkFailure?_eq_none h
  exact node_linked_of_contains hp hc j

theorem parent?_linked {s : Scene α} {p c : NodeId} (h : s.linkFailure? p c = none) (j : NodeId) :
    (s.linked p c).parent? j = if j = c then some p else s.parent? j := by
  rw [parent?, node_linked h]

theorem children_linked {s : Scene α} {p c : NodeId} (h : s.linkFailure? p c = none)
    (j : NodeId) :
    (s.linked p c).children j = if j = p then s.children j ++ [c] else s.children j := by
  rw [children, node_linked h]

end Scene

/-! ## Actions on one node -/

/-- The second node is the first in another frame, with another aim or with more named
positions. -/
structure Node.Keeps (old new : Node α) : Prop where
  parent : new.parent = old.parent
  children : new.children = old.children
  kind : new.kind = old.kind
  points : old.points <+: new.points

/-- The second node is the first in the same frame, with another aim or with more named
positions. -/
structure Node.Stands (old new : Node α) : Prop extends Node.Keeps old new where
  transform : new.transform = old.transform

theorem Node.Keeps.point? {old new : Node α} (h : Node.Keeps old new) {name : String}
    {v : Vec3 α} (hv : old.point? name = some v) : new.point? name = some v := by
  obtain ⟨more, hmore⟩ := h.points
  rw [Node.point?] at hv ⊢
  rw [← hmore, List.lookup_append, hv]
  rfl

namespace Scene

section Adjusts

variable {s : Scene α} {id : NodeId} {P : Node α → Node α → Prop}

/-- What may come of an action on one node. The action is refused, or it succeeds with the node as
it is, or with the node adjusted. -/
inductive Adjusts (P : Node α → Node α → Prop) (s : Scene α) (id : NodeId) {β : Type} :
    EStateM.Result Failure (Scene α) β → Prop
  | refused (f : Failure) : Adjusts P s id (.error f s)
  | same (b : β) : Adjusts P s id (.ok b s)
  | adjusted (b : β) (f : Node α → Node α) :
      (∀ n, P n (f n)) → Adjusts P s id (.ok b (s.modify id f))

theorem update_adjusts {f : Node α → Node α} (hf : ∀ n, P n (f n)) :
    Adjusts P s id (update id f s) := by
  unfold update
  split
  · exact .adjusted _ f hf
  · exact .refused _

theorem release_adjusts (s : Scene α) (id : NodeId) :
    Adjusts Node.Stands s id (release id s) :=
  update_adjusts fun _ => ⟨⟨rfl, rfl, rfl, List.prefix_refl _⟩, rfl⟩

theorem setFrame_adjusts (s : Scene α) (id : NodeId) (t : Transform α) :
    Adjusts Node.Keeps s id (setFrame id t s) :=
  update_adjusts fun _ => ⟨rfl, rfl, rfl, List.prefix_refl _⟩

theorem Adjusts.size {β : Type} {r : EStateM.Result Failure (Scene α) β} (h : Adjusts P s id r) :
    (final r).size = s.size := by
  cases h with
  | refused f => rfl
  | same b => rfl
  | adjusted b f hf => exact size_modify s id f

end Adjusts

end Scene

variable [Scalar α]

/-- The node moved so that its position `this` falls on `target` of its parent. -/
def Node.stuck (this target : Vec3 α) (n : Node α) : Node α :=
  { n with transform :=
      { n.transform with position := n.transform.stuckPosition this target } }

theorem Node.stuck_keeps (this target : Vec3 α) (n : Node α) :
    Node.Keeps n (n.stuck this target) :=
  ⟨rfl, rfl, rfl, List.prefix_refl _⟩

namespace Scene

theorem register_adjusts (s : Scene α) (id : NodeId) (name : String) (position : Vec3 α) :
    Adjusts Node.Stands s id (register id name position s) := by
  unfold register
  split
  · split
    · exact .refused _
    · exact .adjusted _ _ fun _ => ⟨⟨rfl, rfl, rfl, List.prefix_append _ _⟩, rfl⟩
  · exact .refused _

theorem hold_adjusts (s : Scene α) (id : NodeId) (anchor : Anchor α) :
    Adjusts Node.Stands s id (hold id anchor s) := by
  unfold hold
  split
  · exact .refused _
  · exact update_adjusts fun _ => ⟨⟨rfl, rfl, rfl, List.prefix_refl _⟩, rfl⟩

theorem grab_adjusts (s : Scene α) (id : NodeId) (anchor : Anchor α) :
    Adjusts Node.Stands s id (grab id anchor s) := by
  unfold grab
  split
  · exact .refused _
  · exact update_adjusts fun _ => ⟨⟨rfl, rfl, rfl, List.prefix_refl _⟩, rfl⟩

/-- An aim is refused, or it finds the two positions and turns the node, if there is a turn. -/
theorem aim_cases (id : NodeId) (target : Anchor α) (s : Scene α) :
    (∃ f, aim id target s = .error f s) ∨
    s.contains id ∧ ∃ grabbed v, (s.node id).grabbed = some grabbed ∧ s.resolve id target = .ok v ∧
      ((s.node id).correction? grabbed v = none ∧ aim id target s = .ok () s ∨
        ∃ q, (s.node id).correction? grabbed v = some q ∧
          aim id target s = .ok () (s.modify id fun n => n.turn q)) := by
  unfold aim
  split
  next hid =>
    split
    · exact .inl ⟨_, rfl⟩
    next grabbed hgrabbed =>
      split
      · exact .inl ⟨_, rfl⟩
      next v hv =>
        refine .inr ⟨hid, grabbed, v, hgrabbed, hv, ?_⟩
        cases (s.node id).correction? grabbed v with
        | none => exact .inl ⟨rfl, rfl⟩
        | some q => exact .inr ⟨q, rfl, rfl⟩
  · exact .inl ⟨_, rfl⟩

theorem aim_adjusts (s : Scene α) (id : NodeId) (target : Anchor α) :
    Adjusts Node.Keeps s id (aim id target s) := by
  rcases aim_cases id target s with ⟨f, h⟩ | ⟨-, _, _, -, -, ⟨-, h⟩ | ⟨q, -, h⟩⟩
  · rw [h]
    exact .refused f
  · rw [h]
    exact .same ()
  · rw [h]
    exact .adjusted () _ fun _ => ⟨rfl, rfl, rfl, List.prefix_refl _⟩

/-! ## Actions that link -/

theorem link_cases (p c : NodeId) (s : Scene α) : (∃ f, link p c s = .error f s) ∨
    s.linkFailure? p c = none ∧ link p c s = .ok () (s.linked p c) := by
  unfold link
  cases s.linkFailure? p c with
  | some f => exact .inl ⟨f, rfl⟩
  | none => exact .inr ⟨rfl, rfl⟩

/-- A join is refused, or it links the node and then moves it. -/
theorem join_cases (this target : Point α) (s : Scene α) : (∃ f, join this target s = .error f s) ∨
    s.linkFailure? target.node this.node = none ∧
      join this target s = .ok () ((s.linked target.node this.node).modify this.node
        (Node.stuck this.position target.position)) := by
  unfold join
  split
  · exact .inl ⟨_, rfl⟩
  · rcases link_cases target.node this.node s with ⟨f, h⟩ | ⟨hfree, h⟩
    · rw [h]
      exact .inl ⟨f, rfl⟩
    · rw [h]
      exact .inr ⟨hfree, rfl⟩

/-- A leaf is linked like any other node, in the scene that has it already. -/
theorem final_hang (p : Point α) (mesh : Mesh) (s : Scene α) : final (hang p mesh s) =
    final (link p.node s.size (s.push (.isolated (.geometry mesh) (.ofPosition p.position)))) := by
  simp only [hang]
  split
  next h => rw [h]; rfl
  next h => rw [h]; rfl

/-! ## Changes -/

/-- One change of a scene. `grow` also covers the leaf that is put into the scene before it is
linked, and that stays there if the link is refused. -/
inductive Change : Scene α → Scene α → Prop
  | grow (s : Scene α) (kind : NodeKind) (t : Transform α) : Change s (s.push (.isolated kind t))
  | adjust (s : Scene α) (id : NodeId) (f : Node α → Node α) :
      (∀ n, Node.Keeps n (f n)) → Change s (s.modify id f)
  | link (s : Scene α) (p c : NodeId) : s.linkFailure? p c = none → Change s (s.linked p c)

/-- Any number of changes, one after the other. -/
def Evolves : Scene α → Scene α → Prop := Relation.ReflTransGen Change

theorem evolves_refl (s : Scene α) : Evolves s s := Relation.ReflTransGen.refl

theorem evolves_trans {s₁ s₂ s₃ : Scene α} (h : Evolves s₁ s₂) (h' : Evolves s₂ s₃) :
    Evolves s₁ s₃ :=
  Relation.ReflTransGen.trans h h'

theorem evolves_of_change {s s' : Scene α} (h : Change s s') : Evolves s s' :=
  Relation.ReflTransGen.single h

/-- A law that every change keeps holds wherever a scene evolves to. -/
theorem evolves_invariant {P : Scene α → Prop} (step : ∀ s s', Change s s' → P s → P s')
    {s s' : Scene α} (h : Evolves s s') (hs : P s) : P s' := by
  induction h with
  | refl => exact hs
  | tail _ hc ih => exact step _ _ hc ih

/-! ## Edits are made of changes -/

theorem Adjusts.evolves {s : Scene α} {id : NodeId} {P : Node α → Node α → Prop} {β : Type}
    {r : EStateM.Result Failure (Scene α) β} (h : Adjusts P s id r)
    (hP : ∀ n n', P n n' → Node.Keeps n n') : Evolves s (final r) := by
  cases h with
  | refused f => exact evolves_refl s
  | same b => exact evolves_refl s
  | adjusted b f hf => exact evolves_of_change (.adjust s id f fun n => hP _ _ (hf n))

theorem link_evolves (p c : NodeId) (s : Scene α) : Evolves s (final (link p c s)) := by
  rcases link_cases p c s with ⟨f, h⟩ | ⟨hfree, h⟩
  · rw [h]
    exact evolves_refl s
  · rw [h]
    exact evolves_of_change (.link s p c hfree)

theorem join_evolves (this target : Point α) (s : Scene α) :
    Evolves s (final (join this target s)) := by
  rcases join_cases this target s with ⟨f, h⟩ | ⟨hfree, h⟩
  · rw [h]
    exact evolves_refl s
  · rw [h]
    exact evolves_trans (evolves_of_change (.link s _ _ hfree))
      (evolves_of_change (.adjust _ _ _ fun n => n.stuck_keeps _ _))

theorem hang_evolves (p : Point α) (mesh : Mesh) (s : Scene α) :
    Evolves s (final (hang p mesh s)) := by
  rw [final_hang]
  exact evolves_trans (evolves_of_change (.grow s _ _)) (link_evolves _ _ _)

/-- An edit, refused or not, leaves a scene that evolved from the old one. -/
theorem edit_evolves (e : Edit α) (s : Scene α) : Evolves s (final (e.run s)) := by
  cases e with
  | add t => exact evolves_of_change (.grow s .structural t)
  | register node name position =>
    exact (register_adjusts s node name position).evolves fun _ _ => Node.Stands.toKeeps
  | setFrame node t => exact (setFrame_adjusts s node t).evolves fun _ _ h => h
  | link parent child => exact link_evolves parent child s
  | join this target => exact join_evolves this target s
  | hang p mesh => exact hang_evolves p mesh s
  | hold node anchor => exact (hold_adjusts s node anchor).evolves fun _ _ => Node.Stands.toKeeps
  | grab node anchor => exact (grab_adjusts s node anchor).evolves fun _ _ => Node.Stands.toKeeps
  | aim node target => exact (aim_adjusts s node target).evolves fun _ _ h => h
  | release node => exact (release_adjusts s node).evolves fun _ _ => Node.Stands.toKeeps

/-! ## Histories -/

/-- The scene after a history of edits, refused ones included. -/
def after (s : Scene α) (es : List (Edit α)) : Scene α :=
  es.foldl (fun s e => final (e.run s)) s

theorem after_evolves (es : List (Edit α)) (s : Scene α) : Evolves s (s.after es) := by
  induction es generalizing s with
  | nil => exact evolves_refl s
  | cons e es ih => exact evolves_trans (edit_evolves e s) (ih _)

/-! ## Scenes only grow -/

/-- The second scene has all that the first has, and maybe more. -/
structure Extends (s s' : Scene α) : Prop where
  size : s.size ≤ s'.size
  kind : ∀ id, s.contains id → (s'.node id).kind = (s.node id).kind
  parent : ∀ id p, s.parent? id = some p → s'.parent? id = some p
  children : ∀ id, s.children id <+: s'.children id
  points : ∀ id name v, (s.node id).point? name = some v → (s'.node id).point? name = some v

theorem extends_refl (s : Scene α) : Extends s s :=
  ⟨Nat.le_refl _, fun _ _ => rfl, fun _ _ h => h, fun _ => List.prefix_refl _, fun _ _ _ h => h⟩

theorem extends_trans {s₁ s₂ s₃ : Scene α} (h : Extends s₁ s₂) (h' : Extends s₂ s₃) :
    Extends s₁ s₃ where
  size := Nat.le_trans h.size h'.size
  kind id hid := by
    have hid₂ : s₂.contains id :=
      contains_iff.mpr (Nat.lt_of_lt_of_le (contains_iff.mp hid) h.size)
    rw [h'.kind id hid₂, h.kind id hid]
  parent id p hp := h'.parent id p (h.parent id p hp)
  children id := (h.children id).trans (h'.children id)
  points id name v hv := h'.points id name v (h.points id name v hv)

theorem push_extends (s : Scene α) (n : Node α) : Extends s (s.push n) := by
  have same : ∀ id, s.contains id → (s.push n).node id = s.node id := fun id hid => by
    rw [node_push, if_neg (Nat.ne_of_lt (contains_iff.mp hid))]
  refine ⟨by simp, fun id hid => by rw [same id hid], ?_, ?_, ?_⟩
  · intro id p h
    rw [parent?, same id (contains_of_parent h)]
    exact h
  · intro id
    by_cases hid : s.contains id
    · have hsame : (s.push n).children id = s.children id := congrArg Node.children (same id hid)
      exact hsame ▸ List.prefix_refl _
    · simp [children, node_of_not_contains hid, Inhabited.default, Node.isolated]
  · intro id name v hv
    by_cases hid : s.contains id
    · rwa [same id hid]
    · rw [node_of_not_contains hid] at hv
      cases hv

theorem modify_extends (s : Scene α) (id : NodeId) {f : Node α → Node α}
    (hf : ∀ n, Node.Keeps n (f n)) : Extends s (s.modify id f) := by
  have keeps : ∀ j, Node.Keeps (s.node j) ((s.modify id f).node j) := fun j => by
    rw [node_modify]
    split
    · exact hf _
    · exact ⟨rfl, rfl, rfl, List.prefix_refl _⟩
  have hchildren : ∀ j, (s.modify id f).children j = s.children j := fun j => (keeps j).children
  refine ⟨by simp, fun j _ => (keeps j).kind, ?_, ?_, fun j _ _ => (keeps j).point?⟩
  · intro j p h
    rw [parent?, (keeps j).parent]
    exact h
  · intro j
    exact hchildren j ▸ List.prefix_refl _

theorem linked_extends {s : Scene α} {p c : NodeId} (h : s.linkFailure? p c = none) :
    Extends s (s.linked p c) := by
  obtain ⟨-, -, -, hfree, -, -⟩ := linkFailure?_eq_none h
  refine ⟨by simp, fun id _ => by rw [node_linked h], ?_, ?_, ?_⟩
  · intro id q hq
    have hne : id ≠ c := fun e => by rw [e, hfree] at hq; cases hq
    rw [parent?_linked h, if_neg hne]
    exact hq
  · intro id
    rw [children_linked h]
    split
    · exact List.prefix_append _ _
    · exact List.prefix_refl _
  · intro id name v hv
    rw [node_linked h]
    exact hv

/-- A scene that evolves only grows. -/
theorem evolves_extends {s s' : Scene α} (h : Evolves s s') : Extends s s' := by
  refine evolves_invariant (P := Extends s) (fun s₁ s₂ hc hs => ?_) h (extends_refl s)
  refine extends_trans hs ?_
  cases hc with
  | grow kind t => exact push_extends s₁ _
  | adjust id f hf => exact modify_extends s₁ id hf
  | link p c hl => exact linked_extends hl

/-- What a scene gains on its way is what it gains first and what it gains later. -/
theorem since_append_of_evolves {s₁ s₂ s₃ : Scene α} (h : Evolves s₁ s₂) (h' : Evolves s₂ s₃) :
    s₂.since s₁.size ++ s₃.since s₂.size = s₃.since s₁.size :=
  since_append (evolves_extends h).size (evolves_extends h').size

end Scene

/-! ## Nodes that an edit adds -/

/-- The nodes that an edit puts into a scene, whether or not it then succeeds. -/
def Edit.pushes (s : Scene α) : Edit α → List NodeId
  | .add _ | .hang .. => [s.size]
  | .register .. | .setFrame .. | .link .. | .join .. | .hold .. | .grab .. | .aim ..
  | .release _ => []

namespace Scene

theorem size_link (p c : NodeId) (s : Scene α) : (final (link p c s)).size = s.size := by
  rcases link_cases p c s with ⟨f, h⟩ | ⟨-, h⟩
  · rw [h]
    rfl
  · rw [h]
    exact size_linked s p c

theorem size_join (this target : Point α) (s : Scene α) :
    (final (join this target s)).size = s.size := by
  rcases join_cases this target s with ⟨f, h⟩ | ⟨-, h⟩
  · rw [h]
    rfl
  · rw [h]
    exact (size_modify _ _ _).trans (size_linked s _ _)

theorem size_hang (p : Point α) (mesh : Mesh) (s : Scene α) :
    (final (hang p mesh s)).size = s.size + 1 := by
  rw [final_hang, size_link, size_push]

theorem size_edit (e : Edit α) (s : Scene α) :
    (final (e.run s)).size = s.size + (e.pushes s).length := by
  cases e with
  | add t => exact size_push s _
  | register node name position => exact (register_adjusts s node name position).size
  | setFrame node t => exact (setFrame_adjusts s node t).size
  | link parent child => exact size_link parent child s
  | join this target => exact size_join this target s
  | hang p mesh => exact size_hang p mesh s
  | hold node anchor => exact (hold_adjusts s node anchor).size
  | grab node anchor => exact (grab_adjusts s node anchor).size
  | aim node target => exact (aim_adjusts s node target).size
  | release node => exact (release_adjusts s node).size

/-- The nodes that an edit pushes are those that the scene has gained. -/
theorem pushes_eq_since (e : Edit α) (s : Scene α) :
    e.pushes s = (final (e.run s)).since s.size := by
  rw [since, size_edit, Nat.add_sub_cancel_left]
  cases e <;> rfl

end Scene

end Espalier
