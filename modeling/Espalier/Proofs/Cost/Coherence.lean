import Espalier.Cost.Session
import Espalier.Proofs.Scene.Rest
import Std.Data.TreeMap.Lemmas

/-!
# A session that remembers charges like one that does not

A session looks a position up once and keeps it, so it is right as long as no node that it remembers
has moved. `Coherent` says that it is right now. Looking up keeps it so, and so does every edit that
leaves the remembered nodes where they are.

Results:
1. `charge?_of_coherent`, `entries_of_coherent`: a coherent session charges by the scene alone.
2. `call_eq_renewed`: on any desk that is reached without moving a remembered node, every call is
   answered as by a fresh session, and only moving a remembered node or an ancestor can move one.
-/

namespace Espalier

/-- What a node is charged by where it and its parent are in a scene. -/
def Guide.charge? (guides : List Guide) (s : Scene Float32) (id : NodeId) : Option Charge :=
  match s.parent? id with
  | none => none
  | some parent =>
    let start := s.worldPosition parent
    let direction := (s.worldPosition id - start).normalizeOrZero
    (Guide.nearest? guides start).map fun (guide, projection) =>
      { alignment := guide.alignmentCharge (guide.tangent projection.t) direction
        distance := guide.distanceCharge projection.distance }

/-- A line of the account of a scoring: a node, and what the session charged it. -/
structure Entry where
  node : NodeId
  charge : Option Charge

/-- The sum with the charge of an entry added. -/
def Entry.addTo (sum : Float) (e : Entry) : Float :=
  match e.charge with
  | some p => sum + widen p.total
  | none => sum

namespace GuidedSession

/-! ## The account of a scoring -/

/-- The nodes that `chargeAll` charges, in this order. -/
def scored (s : Scene Float32) : (steps : Nat) → (seen : Std.TreeSet NodeId) →
    (pending : List NodeId) → List NodeId
  | 0, _, _ => []
  | steps + 1, seen, pending =>
    match pending.dropWhile (passes s seen) with
    | [] => []
    | id :: pending => id :: scored s steps (seen.insert id) (s.children id ++ pending)

/-- The account of `chargeAll`: what the session answers for each node that it charges. -/
def entries (s : Scene Float32) : (steps : Nat) → GuidedSession → (seen : Std.TreeSet NodeId) →
    (pending : List NodeId) → List Entry
  | 0, _, _, _ => []
  | steps + 1, g, seen, pending =>
    match pending.dropWhile (passes s seen) with
    | [] => []
    | id :: pending =>
      ⟨id, (g.charge? s id).1⟩ ::
        entries s steps (g.charge? s id).2 (seen.insert id) (s.children id ++ pending)

/-- The account of the scoring of some nodes. -/
def account (g : GuidedSession) (s : Scene Float32) (added : List NodeId) : List Entry :=
  entries s s.size g ∅ added

theorem chargeAll_eq_foldl (s : Scene Float32) (steps : Nat) (g : GuidedSession)
    (seen : Std.TreeSet NodeId) (sum : Float) (pending : List NodeId) :
    (chargeAll s steps g seen sum pending).1 =
      (entries s steps g seen pending).foldl Entry.addTo sum := by
  induction steps generalizing g seen sum pending with
  | zero => rfl
  | succ steps ih =>
    rw [chargeAll, entries]
    cases pending.dropWhile (passes s seen) with
    | nil => rfl
    | cons id pending => exact ih _ _ _ _

theorem score_eq_account (g : GuidedSession) (specimen : Specimen) (added : List NodeId) :
    (g.score specimen added).1 =
      ⟨specimen.cost.real + (g.account specimen.scene added).foldl Entry.addTo 0, 0⟩ := by
  rw [account, ← chargeAll_eq_foldl]
  rfl

/-! ## Coherence -/

/-- The session remembers nodes of the scene, and each where it is. -/
structure Coherent (g : GuidedSession) (s : Scene Float32) : Prop where
  mem : ∀ id ∈ g.positions, s.contains id
  position : ∀ id p, g.positions[id]? = some p → p = s.worldPosition id

theorem ofGuides_coherent (guides : List Guide) (s : Scene Float32) :
    Coherent (ofGuides guides) s where
  mem _ h := absurd h Std.TreeMap.not_mem_emptyc
  position id p h := by
    rw [ofGuides, Std.TreeMap.getElem?_emptyc] at h
    cases h

section Lookup

variable {g : GuidedSession} {s : Scene Float32} {id : NodeId}

theorem position_guides : (g.position s id).2.guides = g.guides := by
  unfold position
  split <;> rfl

theorem position_of_coherent (h : Coherent g s) : (g.position s id).1 = s.worldPosition id := by
  unfold position
  split
  next p hp => exact h.position id p hp
  · rfl

theorem position_coherent (h : Coherent g s) (hid : s.contains id) :
    Coherent (g.position s id).2 s := by
  unfold position
  split
  · exact h
  · refine ⟨fun j hj => ?_, fun j p hp => ?_⟩
    · rcases Std.TreeMap.mem_insert.mp hj with heq | hj
      · rwa [← Std.LawfulEqCmp.compare_eq_iff_eq.mp heq]
      · exact h.mem j hj
    · rw [Std.TreeMap.getElem?_insert] at hp
      split at hp
      next heq =>
        rw [← Std.LawfulEqCmp.compare_eq_iff_eq.mp heq]
        exact (Option.some.inj hp).symm
      · exact h.position j p hp

theorem charge?_guides : (g.charge? s id).2.guides = g.guides := by
  unfold charge?
  split
  · rfl
  · exact position_guides.trans position_guides

/-- A coherent session charges a node for where it and its parent are. -/
theorem charge?_of_coherent (h : Coherent g s) :
    (g.charge? s id).1 = Guide.charge? g.guides s id := by
  unfold charge? Guide.charge?
  cases hp : s.parent? id with
  | none => rfl
  | some parent =>
    -- The parent is looked up in the session behind the first lookup.
    have hstart : ((g.position s id).2.position s parent).1 = s.worldPosition parent :=
      position_of_coherent (position_coherent h (Scene.contains_of_parent hp))
    simp only [hstart, position_of_coherent h, position_guides]

theorem charge?_coherent (hf : Scene.Forest s) (h : Coherent g s) :
    Coherent (g.charge? s id).2 s := by
  unfold charge?
  split
  · exact h
  next parent hp =>
    exact position_coherent (position_coherent h (Scene.contains_of_parent hp))
      (hf.parent_mem id parent hp)

end Lookup

theorem chargeAll_coherent {s : Scene Float32} (hf : Scene.Forest s) (steps : Nat)
    {g : GuidedSession} (h : Coherent g s) (seen : Std.TreeSet NodeId) (sum : Float)
    (pending : List NodeId) : Coherent (chargeAll s steps g seen sum pending).2 s := by
  induction steps generalizing g seen sum pending with
  | zero => exact h
  | succ steps ih =>
    rw [chargeAll]
    split
    · exact h
    · exact ih (charge?_coherent hf h) _ _ _

/-- The account of a coherent session does not depend on what the session remembers. -/
theorem entries_of_coherent {s : Scene Float32} (hf : Scene.Forest s) (steps : Nat)
    {g : GuidedSession} (h : Coherent g s) (seen : Std.TreeSet NodeId) (pending : List NodeId) :
    entries s steps g seen pending =
      (scored s steps seen pending).map fun id => ⟨id, Guide.charge? g.guides s id⟩ := by
  induction steps generalizing g seen pending with
  | zero => rfl
  | succ steps ih =>
    rw [entries, scored]
    cases pending.dropWhile (passes s seen) with
    | nil => rfl
    | cons id pending =>
      dsimp only
      rw [List.map_cons, ih (charge?_coherent hf h), charge?_of_coherent h, charge?_guides]

end GuidedSession

/-! ## Sessions at work -/

/-- A session and the scene that it is used on. -/
structure Desk where
  scene : Scene Float32
  session : GuidedSession

/-- What is done at a desk: the scene is edited, or the session is asked about it. -/
inductive Call where
  | edit (e : Edit Float32)
  | charge (node : NodeId)
  | score (charged : Cost) (added : List NodeId)

inductive Reply where
  | edited
  | charge (c : Option Charge)
  | score (c : Cost)

namespace Desk

/-- The reply to a call, and the desk behind it. -/
def call (d : Desk) : Call → Reply × Desk
  | .edit e => (.edited, { d with scene := final (e.run d.scene) })
  | .charge node =>
    let (c, session) := d.session.charge? d.scene node
    (.charge c, { d with session })
  | .score charged added =>
    let (c, session) := d.session.score ⟨d.scene, charged⟩ added
    (.score c, { d with session })

/-- The desk with a fresh session. -/
def renewed (d : Desk) : Desk := { d with session := d.session.fresh }

/-- A call that leaves every node that the session remembers where it is. -/
def Steady (d : Desk) : Call → Prop
  | .edit e => ∀ id ∈ d.session.positions,
    (final (e.run d.scene)).worldPosition id = d.scene.worldPosition id
  | .charge _ | .score .. => True

/-- The desks that steady calls lead to from an empty scene and a new session. -/
inductive Reached (guides : List Guide) : Desk → Prop
  | start : Reached guides ⟨.empty, .ofGuides guides⟩
  | call {d : Desk} (c : Call) : Reached guides d → Steady d c → Reached guides (d.call c).2

theorem reached_forest {guides : List Guide} {d : Desk} (h : Reached guides d) :
    Scene.Forest d.scene := by
  induction h with
  | start => exact Scene.empty_forest
  | call c _ _ ih =>
    cases c with
    | edit e => exact Scene.evolves_forest (Scene.edit_evolves e _) ih
    | charge node => exact ih
    | score charged added => exact ih

/-- Steady calls keep the session coherent: edits by what is asked of them, the others because
looking up does. -/
theorem reached_coherent {guides : List Guide} {d : Desk} (h : Reached guides d) :
    d.session.Coherent d.scene := by
  induction h with
  | start => exact GuidedSession.ofGuides_coherent guides _
  | @call d c hd hsteady ih =>
    have hf := reached_forest hd
    cases c with
    | edit e =>
      refine ⟨fun id hid => ?_, fun id p hp => ?_⟩
      · have hextends := Scene.evolves_extends (Scene.edit_evolves e d.scene)
        exact Scene.contains_iff.mpr
          (Nat.lt_of_lt_of_le (Scene.contains_iff.mp (ih.mem id hid)) hextends.size)
      · have hid : id ∈ d.session.positions := by
          rw [Std.TreeMap.mem_iff_isSome_getElem?]
          exact Option.isSome_of_eq_some hp
        exact (ih.position id p hp).trans (hsteady id hid).symm
    | charge node => exact GuidedSession.charge?_coherent hf ih
    | score charged added => exact GuidedSession.chargeAll_coherent hf _ ih _ _ _

/-- At every desk that steady calls lead to, the session answers any call as a fresh one would. An
edit is steady there if it moves or links no node that the session remembers and no ancestor of
one; so is every edit that moves and links no node at all. -/
theorem call_eq_renewed {guides : List Guide} {d : Desk} (h : Reached guides d) :
    (∀ c, (d.call c).1 = (d.renewed.call c).1) ∧
    ∀ e : Edit Float32,
      (∀ n, e.moves = some n → ∀ id ∈ d.session.positions, n ≠ id ∧ n ∉ d.scene.ancestors id) →
        Steady d (.edit e) := by
  have hf := reached_forest h
  have hcoherent := reached_coherent h
  have hfresh : d.renewed.session.Coherent d.scene := GuidedSession.ofGuides_coherent _ _
  refine ⟨fun c => ?_, fun e hmoves id hid => ?_⟩
  · cases c with
    | edit e => rfl
    | charge node =>
      have hcharge : (d.session.charge? d.scene node).1 =
          (d.renewed.session.charge? d.scene node).1 := by
        rw [GuidedSession.charge?_of_coherent hcoherent, GuidedSession.charge?_of_coherent hfresh]
        rfl
      exact congrArg Reply.charge hcharge
    | score charged added =>
      have hscore : (d.session.score ⟨d.scene, charged⟩ added).1 =
          (d.renewed.session.score ⟨d.scene, charged⟩ added).1 := by
        rw [GuidedSession.score_eq_account, GuidedSession.score_eq_account,
          GuidedSession.account, GuidedSession.account,
          GuidedSession.entries_of_coherent hf _ hcoherent,
          GuidedSession.entries_of_coherent hf _ hfresh]
        rfl
      exact congrArg Reply.score hscore
  · refine Scene.edit_worldPosition e hf (hcoherent.mem id hid) fun a ha hmove => ?_
    obtain ⟨hne, hnot⟩ := hmoves a hmove id hid
    rcases List.mem_cons.mp ha with rfl | ha
    · exact hne rfl
    · exact hnot ha

/-- A guide straight up, and a desk with two nodes: one hangs from the root and was scored, so that
the session remembers it and the root; the other hangs nowhere. -/
def oneScored : Desk :=
  [Call.edit (.add (.ofPosition .axisY)), .edit (.add .identity), .edit (.link 0 1),
    .score .zero [1]].foldl (fun d c => (d.call c).2)
      ⟨.empty, .ofGuides [⟨.line .zero ⟨0, 10, 0⟩, (0, 0, 1), 10, 0⟩]⟩

theorem call_eq_renewed_oneScored :
    Reached oneScored.session.guides oneScored ∧ oneScored.session.positions.keys = [0, 1] ∧
    (∀ c, (oneScored.call c).1 = (oneScored.renewed.call c).1) ∧
    Steady oneScored (.edit (.setFrame 2 (.ofPosition .axisX))) := by
  have hkeys : oneScored.session.positions.keys = [0, 1] := rfl
  -- Nothing is remembered before the last call.
  have hnothing : ∀ id ∈ (∅ : Std.TreeMap NodeId (Vec3 Float32)), False := fun _ h =>
    Std.TreeMap.not_mem_emptyc h
  have hreached : Reached oneScored.session.guides oneScored :=
    .call _ (.call _ (.call _ (.call _ .start
      fun _ h => (hnothing _ h).elim) fun _ h => (hnothing _ h).elim)
      fun _ h => (hnothing _ h).elim) trivial
  obtain ⟨hreply, hsteady⟩ := call_eq_renewed hreached
  refine ⟨hreached, hkeys, hreply, hsteady _ fun n hn id hid => ?_⟩
  cases hn
  rw [← Std.TreeMap.mem_keys, hkeys, List.mem_cons, List.mem_singleton] at hid
  rcases hid with rfl | rfl <;> exact ⟨by decide, by decide +kernel⟩

end Desk

end Espalier
