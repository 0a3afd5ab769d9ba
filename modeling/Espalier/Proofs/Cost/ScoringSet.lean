import Espalier.Proofs.Cost.Ledger
import Espalier.Proofs.Scene.Bearing
import Mathlib.Data.Set.Insert

/-!
# What a scoring charges

A scoring charges what the added nodes bear, each node once, in the order in which a walk first
visits it. It passes over a node that was charged before, with all that is below. Nothing is missed
there: no node stands below itself, so the walk has left that node and charged all that it bears.

A session remembers more with every lookup, but it goes on to answer the same. So a node is charged
the same at any time of a scoring, also if the session remembers nodes of another scene.

Results:
1. `scored_of_walks`: the walk of a scoring is a walk over structural nodes without repetition.
2. `Agrees.charge?`, `foldl_chargeOne`: charges do not depend on what was charged before.
3. `account_append`: two lists that share no charged node are charged one after the other.
4. `scoring_exact`: what a scoring charges, comes to and remembers, and in which order one may score.
-/

namespace Espalier

namespace GuidedSession

variable {s : Scene Float32} {g g' : GuidedSession} {seen : Std.TreeSet NodeId} {id x : NodeId}
  {pending visited ids more : List NodeId} {Q : Set NodeId} {steps : Nat}

/-! ## What is passed over -/

theorem scored_append_of_passes {passed : List NodeId} (h : ∀ x ∈ passed, passes s seen x) :
    scored s steps seen (passed ++ pending) = scored s steps seen pending := by
  cases steps with
  | zero => rfl
  | succ steps => rw [scored, scored, List.dropWhile_append_of_pos h]

theorem scored_cons_of_passes (h : passes s seen id) :
    scored s steps seen (id :: pending) = scored s steps seen pending := by
  have hsingle : ∀ x ∈ [id], passes s seen x := List.forall_mem_singleton.mpr h
  exact scored_append_of_passes hsingle

theorem scored_cons (hstructural : s.isStructural id) (hnew : id ∉ seen) :
    scored s (steps + 1) seen (id :: pending) =
      id :: scored s steps (seen.insert id) (s.children id ++ pending) := by
  rw [scored, List.dropWhile_cons_of_neg (not_passes_iff.mpr ⟨hstructural, hnew⟩)]

/-- What some nodes bear. -/
def borne (s : Scene Float32) (ids : List NodeId) : Set NodeId := {x | ∃ a ∈ ids, s.Bears a x}

theorem mem_borne : x ∈ borne s ids ↔ ∃ a ∈ ids, s.Bears a x := Iff.rfl

theorem mem_borne_singleton : x ∈ borne s [id] ↔ s.Bears id x := by simp [borne]

theorem borne_append : borne s (ids ++ more) = borne s ids ∪ borne s more := by
  ext x
  simp only [mem_borne, Set.mem_union, List.mem_append, or_and_right, exists_or]

/-- Of what a node bears, that in `Q` bears only what is in `Q` too. -/
def ClosedBelow (s : Scene Float32) (Q : Set NodeId) (id : NodeId) : Prop :=
  ∀ x ∈ Q, s.Bears id x → ∀ y, s.Bears x y → y ∈ Q

/-- `Settled s Q pending`: a walk over the pending nodes misses nothing if it passes over those in
`Q` and those that it has visited. Whenever it comes to a pending node, these are closed below. -/
def Settled (s : Scene Float32) (Q : Set NodeId) : List NodeId → Prop
  | [] => True
  | id :: pending => ClosedBelow s Q id ∧ Settled s (Q ∪ borne s [id]) pending

theorem settled_append (h : Settled s Q ids) (hmore : Settled s (Q ∪ borne s ids) more) :
    Settled s Q (ids ++ more) := by
  induction ids generalizing Q with
  | nil =>
    have hnone : borne s [] = ∅ := by ext x; simp [borne]
    rwa [hnone, Set.union_empty] at hmore
  | cons id ids ih =>
    refine ⟨h.1, ih h.2 ?_⟩
    rwa [Set.union_assoc, ← borne_append, List.singleton_append]

/-- What one pending node bears is closed below another. -/
theorem settled_of_closed (h : ∀ id ∈ ids, ClosedBelow s Q id) : Settled s Q ids := by
  induction ids generalizing Q with
  | nil => trivial
  | cons id ids ih =>
    refine ⟨h id List.mem_cons_self, ih fun a ha x hx hax y hy => ?_⟩
    rcases hx with hx | ⟨b, hb, hbx⟩
    · exact .inl (h a (List.mem_cons_of_mem _ ha) x hx hax y hy)
    · exact .inr ⟨b, hb, hbx.trans hy⟩

/-- When a structural node is visited, its children are pending instead of it. -/
theorem settled_visit (hf : Scene.Forest s) (hid : s.isStructural id)
    (h : Settled s Q (id :: pending)) : Settled s (insert id Q) (s.children id ++ pending) := by
  refine settled_append (settled_of_closed fun c hc x hx hcx y hy => ?_) ?_
  · rcases hx with rfl | hx
    · exact absurd hcx (Scene.not_bears_parent hf hc)
    · have hbears : s.Bears id x := Scene.bears_iff.mpr ⟨hid, .inr ⟨c, hc, hcx⟩⟩
      exact .inr (h.1 x hx hbears y hy)
  · have hborne : insert id Q ∪ borne s (s.children id) = Q ∪ borne s [id] := by
      ext x
      have hbears : s.Bears id x ↔ x = id ∨ x ∈ borne s (s.children id) := by
        rw [Scene.bears_iff, and_iff_right hid, mem_borne]
      rw [Set.mem_union, Set.mem_insert_iff, Set.mem_union, mem_borne_singleton, hbears,
        or_comm (a := x = id), or_assoc]
    rw [hborne]
    exact h.2

/-- Below a node that was charged before there is nothing to charge. -/
theorem passes_children (hid : s.isStructural id) (hseen : id ∈ seen)
    (h : ClosedBelow s {x | x ∈ seen} id) : ∀ c ∈ s.children id, passes s seen c := by
  intro c hc
  by_contra hcontra
  obtain ⟨hc', hnew⟩ := not_passes_iff.mp hcontra
  have hbears : s.Bears id c := Scene.bears_iff.mpr ⟨hid, .inr ⟨c, hc, Scene.bears_self hc'⟩⟩
  exact hnew (h id hseen (Scene.bears_self hid) c hbears)

theorem filter_insert : (visited.filter (· ∉ seen)).filter (fun x => !x == id) =
    visited.filter (· ∉ seen.insert id) := by
  rw [List.filter_filter]
  refine List.filter_congr fun x _ => ?_
  rw [Bool.eq_iff_iff]
  simp only [Bool.and_eq_true, Bool.not_eq_true', beq_eq_false_iff_ne, ne_eq, decide_eq_true_iff,
    mem_insert, not_or]

/-- The walk charges those of the nodes that it visits that it did not charge before, each at the
first visit, as many as it has steps for. -/
theorem scored_of_walks (hf : Scene.Forest s) (h : s.Walks pending visited) (steps : Nat)
    (hsettled : Settled s {x | x ∈ seen} pending) :
    scored s steps seen pending = (visited.filter (· ∉ seen)).eraseDups.take steps := by
  induction h generalizing steps seen with
  | done => cases steps <;> rfl
  | @pass id pending visited hleaf _ ih =>
    have hpasses : passes s seen id := by simp [passes, hleaf]
    have hnone : borne s [id] = ∅ := by
      ext x
      exact iff_of_false (fun hx => hleaf (mem_borne_singleton.mp hx).1) (Set.notMem_empty x)
    have hrest := hsettled.2
    rw [hnone, Set.union_empty] at hrest
    rw [scored_cons_of_passes hpasses, ih steps hrest]
  | @visit id pending visited hstructural _ ih =>
    have hvisit := settled_visit hf hstructural hsettled
    by_cases hseen : id ∈ seen
    · have hmem : id ∈ {x | x ∈ seen} := hseen
      rw [Set.insert_eq_of_mem hmem] at hvisit
      have hpasses : passes s seen id := by simp [passes, hseen]
      have hchildren := passes_children hstructural hseen hsettled.1
      rw [scored_cons_of_passes hpasses, List.filter_cons_of_neg (by simpa using hseen),
        ← ih steps hvisit, scored_append_of_passes hchildren]
    · cases steps with
      | zero => rfl
      | succ steps =>
        have hinsert : insert id {x | x ∈ seen} = {x | x ∈ seen.insert id} := by
          ext x
          exact mem_insert.symm
        rw [hinsert] at hvisit
        rw [scored_cons hstructural hseen, List.filter_cons_of_pos (by simpa using hseen),
          List.eraseDups_cons, List.take_succ_cons, filter_insert, ih steps hvisit]

/-- The walk of a scoring ends by itself: it charges each node that it visits once, and the scene
has no more nodes. -/
theorem scored_eq_eraseDups (hf : Scene.Forest s) {added : List NodeId} (h : s.Walks added visited)
    (hsteps : visited.eraseDups.length ≤ steps) : scored s steps ∅ added = visited.eraseDups := by
  have hsettled : Settled s {x | x ∈ (∅ : Std.TreeSet NodeId)} added :=
    settled_of_closed fun _ _ x hx => absurd hx Std.TreeSet.not_mem_emptyc
  have hall : visited.filter (· ∉ (∅ : Std.TreeSet NodeId)) = visited :=
    List.filter_eq_self.mpr fun x _ => by simp
  rw [scored_of_walks hf h steps hsettled, hall, List.take_of_length_le hsteps]

theorem length_eraseDups_le (hf : Scene.Forest s) {added : List NodeId}
    (h : s.Walks added visited) : visited.eraseDups.length ≤ s.size := by
  have hscored := scored_eq_eraseDups hf h (Nat.le_refl _)
  refine Scene.length_le_size (hscored ▸ scored_nodup s _ ∅ added) fun x hx => ?_
  obtain ⟨a, -, hbears⟩ := (Scene.mem_walks h).mp (List.mem_eraseDups.mp hx)
  exact (Bool.and_eq_true_iff.mp hbears.structural).1

/-- The nodes that the scoring of some nodes charges. -/
def chargedNodes (s : Scene Float32) (added : List NodeId) : List NodeId := scored s s.size ∅ added

theorem chargedNodes_eq (hf : Scene.Forest s) {added : List NodeId} (h : s.Walks added visited) :
    chargedNodes s added = visited.eraseDups :=
  scored_eq_eraseDups hf h (length_eraseDups_le hf h)

/-- Nodes are charged if they are borne by one that was added. -/
theorem mem_chargedNodes (hf : Scene.Forest s) {added : List NodeId} :
    x ∈ chargedNodes s added ↔ ∃ a ∈ added, s.Bears a x := by
  obtain ⟨visited, hv⟩ := Scene.exists_walks hf added
  rw [chargedNodes_eq hf hv, List.mem_eraseDups, Scene.mem_walks hv]

/-- Two lists of which none bears what the other bears are charged one after the other. -/
theorem chargedNodes_append (hf : Scene.Forest s) {first second : List NodeId}
    (hdisjoint : ∀ x ∈ chargedNodes s first, x ∉ chargedNodes s second) :
    chargedNodes s (first ++ second) = chargedNodes s first ++ chargedNodes s second := by
  obtain ⟨v, hv⟩ := Scene.exists_walks hf first
  obtain ⟨w, hw⟩ := Scene.exists_walks hf second
  rw [chargedNodes_eq hf hv, chargedNodes_eq hf hw] at hdisjoint ⊢
  have hall : w.removeAll v = w := by
    refine List.filter_eq_self.mpr fun x hx => ?_
    have hnot : x ∉ v := fun hmem =>
      hdisjoint x (List.mem_eraseDups.mpr hmem) (List.mem_eraseDups.mpr hx)
    simpa using hnot
  rw [chargedNodes_eq hf (Scene.walks_append hv hw), List.eraseDups_append, hall]

/-! ## What a session answers -/

theorem position_eq : (g.position s id).1 = g.positions[id]?.getD (s.worldPosition id) := by
  unfold position
  split
  next hp => rw [hp]; rfl
  next hp => rw [hp]; rfl

theorem mem_position : x ∈ (g.position s id).2.positions ↔ x = id ∨ x ∈ g.positions := by
  unfold position
  split
  next hp =>
    have hid : id ∈ g.positions := by
      rw [Std.TreeMap.mem_iff_isSome_getElem?]
      exact Option.isSome_of_eq_some hp
    exact ⟨.inr, fun hx => hx.elim (fun heq => heq ▸ hid) fun hx => hx⟩
  · rw [Std.TreeMap.mem_insert, Std.LawfulEqCmp.compare_eq_iff_eq, eq_comm]

/-- Two sessions that answer alike, whatever they remember. -/
structure Agrees (s : Scene Float32) (g g' : GuidedSession) : Prop where
  guides : g'.guides = g.guides
  position : ∀ id, (g'.position s id).1 = (g.position s id).1

theorem Agrees.refl (s : Scene Float32) (g : GuidedSession) : Agrees s g g := ⟨rfl, fun _ => rfl⟩

theorem Agrees.trans {g'' : GuidedSession} (h : Agrees s g g') (h' : Agrees s g' g'') :
    Agrees s g g'' :=
  ⟨h'.guides.trans h.guides, fun id => (h'.position id).trans (h.position id)⟩

/-- What a lookup adds to the session is what it has answered. -/
theorem position_agrees : Agrees s g (g.position s x).2 where
  guides := position_guides
  position id := by
    rw [position_eq, position_eq]
    unfold position
    split
    · rfl
    next hx =>
      rw [Std.TreeMap.getElem?_insert]
      split
      next heq => rw [← Std.LawfulEqCmp.compare_eq_iff_eq.mp heq, hx]; rfl
      · rfl

theorem charge?_agrees : Agrees s g (g.charge? s x).2 := by
  unfold charge?
  split
  · exact Agrees.refl s g
  · exact position_agrees.trans position_agrees

/-- Sessions that answer alike charge alike. -/
theorem Agrees.charge? (h : Agrees s g g') : (g'.charge? s id).1 = (g.charge? s id).1 := by
  -- The parent is looked up in the session behind the first lookup, which answers alike.
  have hstart : ∀ {k : GuidedSession} p, ((k.position s id).2.position s p).1 =
      (k.position s p).1 := fun p => position_agrees.position p
  unfold GuidedSession.charge?
  split
  · rfl
  · simp only [hstart, position_guides, h.guides, h.position]

/-- To charge a node, a session looks up where it and its parent are. Without a parent there is
nothing to look up. -/
def LooksUp (s : Scene Float32) (id x : NodeId) : Prop :=
  ∃ p, s.parent? id = some p ∧ (x = id ∨ x = p)

theorem mem_charge? : x ∈ (g.charge? s id).2.positions ↔ x ∈ g.positions ∨ LooksUp s id x := by
  unfold GuidedSession.charge?
  split
  next hp =>
    have hnone : ¬LooksUp s id x := by simp [LooksUp, hp]
    rw [or_iff_left hnone]
  next p hp =>
    have hlooks : LooksUp s id x ↔ x = id ∨ x = p := by simp [LooksUp, hp]
    simp only [mem_position, hlooks]
    tauto

/-! ## One charge after the other -/

/-- Charges one node: adds to a sum, and to what the session remembers. -/
def chargeOne (s : Scene Float32) : Float × GuidedSession → NodeId → Float × GuidedSession
  | (sum, g), id => (Entry.addTo sum ⟨id, (g.charge? s id).1⟩, (g.charge? s id).2)

/-- A scoring charges one node after the other. -/
theorem chargeAll_eq_chargeOne (s : Scene Float32) (steps : Nat) (g : GuidedSession)
    (seen : Std.TreeSet NodeId) (sum : Float) (pending : List NodeId) :
    chargeAll s steps g seen sum pending =
      (scored s steps seen pending).foldl (chargeOne s) (sum, g) := by
  induction steps generalizing g seen sum pending with
  | zero => rfl
  | succ steps ih =>
    rw [chargeAll, scored]
    cases pending.dropWhile (passes s seen) with
    | nil => rfl
    | cons id pending => exact ih _ _ _ _

/-- The lines of an account in which a session charges some nodes. -/
def lines (g : GuidedSession) (s : Scene Float32) (nodes : List NodeId) : List Entry :=
  nodes.map fun id => ⟨id, (g.charge? s id).1⟩

theorem Agrees.lines (h : Agrees s g g') (nodes : List NodeId) :
    g'.lines s nodes = g.lines s nodes :=
  List.map_congr_left fun _ _ => by rw [h.charge?]

theorem foldl_chargeOne (nodes : List NodeId) (sum : Float) (g : GuidedSession) :
    (nodes.foldl (chargeOne s) (sum, g)).1 = (g.lines s nodes).foldl Entry.addTo sum ∧
      Agrees s g (nodes.foldl (chargeOne s) (sum, g)).2 ∧
      ∀ x, x ∈ (nodes.foldl (chargeOne s) (sum, g)).2.positions ↔
        x ∈ g.positions ∨ ∃ id ∈ nodes, LooksUp s id x := by
  induction nodes generalizing sum g with
  | nil => exact ⟨rfl, Agrees.refl s g, fun x => by simp⟩
  | cons id nodes ih =>
    obtain ⟨hsum, hagrees, hmem⟩ :=
      ih (Entry.addTo sum ⟨id, (g.charge? s id).1⟩) (g.charge? s id).2
    rw [charge?_agrees.lines] at hsum
    refine ⟨hsum, charge?_agrees.trans hagrees, fun x => ?_⟩
    rw [List.foldl_cons, chargeOne, hmem, mem_charge?, List.exists_mem_cons_iff, or_assoc]

/-- The account of any session, also of one that remembers nodes of another scene. -/
theorem entries_eq_lines (s : Scene Float32) (steps : Nat) (g : GuidedSession)
    (seen : Std.TreeSet NodeId) (pending : List NodeId) :
    entries s steps g seen pending = g.lines s (scored s steps seen pending) := by
  induction steps generalizing g seen pending with
  | zero => rfl
  | succ steps ih =>
    rw [entries, scored]
    cases pending.dropWhile (passes s seen) with
    | nil => rfl
    | cons id pending =>
      dsimp only
      rw [ih, charge?_agrees.lines]
      rfl

/-- Sessions that answer alike keep the same account. -/
theorem Agrees.account (h : Agrees s g g') (added : List NodeId) :
    g'.account s added = g.account s added := by
  rw [GuidedSession.account, GuidedSession.account, entries_eq_lines, entries_eq_lines, h.lines]

/-- The account of two lists that share no charged node is that of one and then of the other. -/
theorem account_append (hf : Scene.Forest s) (g : GuidedSession) {first second : List NodeId}
    (hdisjoint : ∀ x ∈ chargedNodes s first, x ∉ chargedNodes s second) :
    g.account s (first ++ second) = g.account s first ++ g.account s second := by
  have hboth := chargedNodes_append hf hdisjoint
  unfold chargedNodes at hboth
  simp only [account, entries_eq_lines, hboth]
  exact List.map_append

theorem score_agrees (g : GuidedSession) (sofar : Cost) (added : List NodeId) :
    Agrees s g (g.score ⟨s, sofar⟩ added).2 := by
  obtain ⟨-, hagrees, -⟩ := foldl_chargeOne (scored s s.size ∅ added) 0 g
  rwa [← chargeAll_eq_chargeOne] at hagrees

/-! ## Scorings -/

/-- What the scoring of some nodes charges, what it comes to, and what the session remembers then. -/
structure Scoring (g : GuidedSession) (s : Scene Float32) (added : List NodeId) : Prop where
  /-- The walk ends by itself: any number of steps from that of the charged nodes on will do. -/
  ends : ∀ steps sum, (chargedNodes s added).length ≤ steps →
    chargeAll s steps g ∅ sum added = (chargedNodes s added).foldl (chargeOne s) (sum, g)
  within : (chargedNodes s added).length ≤ s.size
  once : (chargedNodes s added).Nodup
  mem : ∀ x, x ∈ chargedNodes s added ↔ ∃ a ∈ added, s.Bears a x
  /-- The nodes are charged in the order in which a walk visits them first. -/
  order : ∃ visited, s.Walks added visited ∧ chargedNodes s added = visited.eraseDups
  account : g.account s added = g.lines s (chargedNodes s added)
  cost : ∀ sofar, (g.score ⟨s, sofar⟩ added).1 =
    ⟨sofar.real + (g.lines s (chargedNodes s added)).foldl Entry.addTo 0, 0⟩
  remembers : ∀ sofar x, x ∈ (g.score ⟨s, sofar⟩ added).2.positions ↔
    x ∈ g.positions ∨ ∃ id ∈ chargedNodes s added, LooksUp s id x

theorem scoring (hf : Scene.Forest s) (g : GuidedSession) (added : List NodeId) :
    Scoring g s added := by
  obtain ⟨visited, hv⟩ := Scene.exists_walks hf added
  have hnodes := chargedNodes_eq hf hv
  have hends : ∀ steps sum, (chargedNodes s added).length ≤ steps →
      chargeAll s steps g ∅ sum added = (chargedNodes s added).foldl (chargeOne s) (sum, g) := by
    intro steps sum hsteps
    rw [hnodes] at hsteps ⊢
    rw [chargeAll_eq_chargeOne, scored_eq_eraseDups hf hv hsteps]
  have hwithin : (chargedNodes s added).length ≤ s.size := hnodes ▸ length_eraseDups_le hf hv
  obtain ⟨hsum, -, hmem⟩ := foldl_chargeOne (chargedNodes s added) 0 g
  have hscore : ∀ sofar, g.score ⟨s, sofar⟩ added =
      (⟨sofar.real + (chargeAll s s.size g ∅ 0 added).1, 0⟩, (chargeAll s s.size g ∅ 0 added).2) :=
    fun _ => rfl
  exact {
    ends := hends
    within := hwithin
    once := scored_nodup s s.size ∅ added
    mem := fun x => mem_chargedNodes hf
    order := ⟨visited, hv, hnodes⟩
    account := entries_eq_lines s s.size g ∅ added
    cost := fun sofar => by rw [hscore, hends _ _ hwithin, hsum]
    remembers := fun sofar x => by rw [hscore, hends _ _ hwithin, hmem] }

/-- In a scene with any history, a scoring in any session charges the nodes that the added ones
bear, each once, and no others, in the order of a walk. How often and in which order they were added
makes no difference to which these are. A fresh session remembers them and their parents then, but
for those without a parent. If two scorings share no node, both in a row charge what one scoring of
all would, whichever comes first. -/
theorem scoring_exact (es : List (Edit Float32)) (g : GuidedSession) :
    let s := (Scene.empty : Scene Float32).after es
    (∀ added, Scoring g s added) ∧
    (∀ added added', (∀ a, a ∈ added ↔ a ∈ added') →
      (chargedNodes s added).Perm (chargedNodes s added')) ∧
    (∀ added sofar x, x ∈ (g.fresh.score ⟨s, sofar⟩ added).2.positions ↔
      ∃ id ∈ chargedNodes s added, LooksUp s id x) ∧
    ∀ first second sofar, (∀ x ∈ chargedNodes s first, x ∉ chargedNodes s second) →
      let r := g.score ⟨s, sofar⟩ first
      let r' := g.score ⟨s, sofar⟩ second
      g.account s first ++ r.2.account s second = g.account s (first ++ second) ∧
      (g.account s second ++ r'.2.account s first).Perm (g.account s (first ++ second)) ∧
      (r.2.score ⟨s, r.1⟩ second).1 =
        ⟨sofar.real + (g.account s first).foldl Entry.addTo 0 +
          (g.account s second).foldl Entry.addTo 0, 0⟩ := by
  intro s
  have hf : Scene.Forest s := Scene.after_forest es
  refine ⟨scoring hf g, fun added added' hsame => ?_, fun added sofar x => ?_,
    fun first second sofar hdisjoint => ?_⟩
  · refine (List.perm_ext_iff_of_nodup (scoring hf g added).once (scoring hf g added').once).mpr
      fun x => ?_
    simp only [mem_chargedNodes hf, hsame]
  · rw [(scoring hf g.fresh added).remembers]
    exact or_iff_right Std.TreeMap.not_mem_emptyc
  · intro r r'
    have hr : r.1 = ⟨sofar.real + (g.account s first).foldl Entry.addTo 0, 0⟩ :=
      score_eq_account g ⟨s, sofar⟩ first
    have hagrees : Agrees s g r.2 := score_agrees g sofar first
    have hagrees' : Agrees s g r'.2 := score_agrees g sofar second
    refine ⟨?_, ?_, ?_⟩
    · rw [hagrees.account, account_append hf g hdisjoint]
    · rw [hagrees'.account, account_append hf g hdisjoint]
      exact List.perm_append_comm
    · rw [score_eq_account, hagrees.account, hr]

/-- Two nodes in a row, the lower one added first and again at the end. -/
example : chargedNodes ((Scene.empty : Scene Float32).after
    [.add .identity, .link 0 1, .add .identity, .link 1 2]) [2, 1, 7, 2] = [2, 1] := by rfl

end GuidedSession

end Espalier
