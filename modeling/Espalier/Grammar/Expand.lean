import Espalier.Grammar.Queue
import Espalier.Grammar.Rank
import Espalier.Grammar.Rule

/-!
# Expansion

`Grammar.expand` grows a scene from a start rule: a queue holds the details to run, oldest first,
and what a rule schedules at some depth joins the queue one level deeper, or is dropped if that is
beyond the bound. The bound alone stops rules that schedule themselves.

The queue is bounded in rank (`WorkRank`), not in size: a rule may schedule any number of details.
-/

namespace Espalier

/-- Where, from which rule and how deep to grow. Without a place, growth starts at the root. -/
structure Expansion where
  start : String
  depth : UInt32
  place : Option (Point Float32)

/-- What became of the details of an expansion. -/
structure Tally where
  /-- Bodies that were run. -/
  applied : Nat
  /-- Rules whose draw chose no body. -/
  skipped : Nat
  /-- Details that were scheduled beyond the bound. -/
  dropped : Nat
deriving DecidableEq

structure Report extends Tally where
  created : List NodeId
deriving DecidableEq

structure Pending extends Detail where
  depth : Nat

namespace Grammar

variable {a : Access}

/-- Applies a rule once: chooses a body and runs it. Answers the details that it scheduled, or none
if no body was chosen. -/
def apply (g : Grammar a) (p : Pending) : EStateM Failure Ground (Option (List Detail)) :=
  fun ⟨scene, stream, notes⟩ =>
    match g.rule? p.rule with
    | none => .error (.error (.unknownRule p.rule)) ⟨scene, stream, notes⟩
    | some r =>
      match r.select stream with
      | (none, stream) => .ok none ⟨scene, stream, notes⟩
      | (some body, stream) =>
        match (body p.depth p.place).run g.contains p.depth ⟨⟨scene, stream, notes⟩, []⟩ with
        | .ok () w => .ok (some w.scheduled.reverse) w.toGround
        | .error f w => .error f w.toGround

/-- The scheduled details of a body that ran at `depth`, if that is above the bound. -/
def keep (bound depth : Nat) (scheduled : List Detail) : List Pending :=
  if depth < bound then scheduled.map (Pending.mk · (depth + 1)) else []

/-- Runs the queue until it is empty. -/
def drain (g : Grammar a) (bound : Nat) (tally : Tally) (queue : Queue Pending) :
    EStateM Failure Ground Tally := fun ground =>
  match _taken : queue.take? with
  | none => .ok tally ground
  | some (p, rest) =>
    match g.apply p ground with
    | .error f ground => .error f ground
    | .ok none ground => g.drain bound { tally with skipped := tally.skipped + 1 } rest ground
    | .ok (some scheduled) ground =>
      let kept := keep bound p.depth scheduled
      let tally :=
        { tally with
          applied := tally.applied + 1
          dropped := tally.dropped + (scheduled.length - kept.length) }
      g.drain bound tally (rest.addAll kept) ground
termination_by WorkRank.ofLevels bound (queue.toList.map (·.depth))
decreasing_by
  · rw [Queue.toList_of_take? _taken, List.map_cons]
    exact WorkRank.ofLevels_tail
  · rw [Queue.toList_of_take? _taken, List.map_cons, Queue.toList_addAll, List.map_append]
    refine WorkRank.ofLevels_replace ?_ ?_
    · intro k hk
      simp only [keep] at hk
      split at hk <;> simp_all
    · intro hb
      simp [keep, Nat.not_lt.2 (Nat.le_of_lt hb)]

/-- Grows the scene of the ground, breadth first. The start rule must be known. -/
def expand (g : Grammar a) (x : Expansion) : EStateM Failure Ground Report := fun ground =>
  if g.contains x.start then
    let mark := ground.scene.size
    let start : Pending := ⟨⟨x.start, x.place.getD (.origin Scene.root)⟩, 0⟩
    match g.drain x.depth.toNat ⟨0, 0, 0⟩ (.single start) ground with
    | .ok tally ground => .ok ⟨tally, ground.scene.since mark⟩ ground
    | .error f ground => .error f ground
  else .error (.error (.unknownRule x.start)) ground

end Grammar

end Espalier
