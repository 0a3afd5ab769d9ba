import Espalier.Proofs.Random.Apart
import Espalier.Random.Bank

/-!
# Streams never run dry

The stream of four zero words would answer zero forever. No other stream leads to it, since steps
lose nothing, and no seed gives it, since four different words are not all mixed into zero. So it
does not occur among the streams that are drawn and forked from a seed.

Results:
1. `serve_follows`: a request but `load` moves its stream on by some words, and adds its child or a
   copy of it at most.
2. `after_nonzero`: no bank of streams that grew from a seed holds the stream of zeros.
-/

namespace Espalier

namespace Stream

/-- The stream of four zero words. -/
def zero : Stream := ⟨0, 0, 0, 0⟩

theorem advanceBy_zero (n : Nat) : advanceBy n zero = zero := by
  induction n with
  | zero => rfl
  | succ n ih => exact ih

/-- Zero is followed by itself, and so by no other stream. -/
theorem advanceBy_ne_zero {s : Stream} (hs : s ≠ zero) (n : Nat) : advanceBy n s ≠ zero := by
  intro h
  exact hs (advanceBy_injective n (h.trans (advanceBy_zero n).symm))

theorem ofSeed_ne_zero (seed : UInt64) : ofSeed seed ≠ zero := by
  intro h
  have hnodup := words_nodup seed
  rw [h] at hnodup
  exact absurd hnodup (by decide)

/-! ## Requests -/

/-- Draws of one word each are made at the positions that follow one another. -/
theorem draws_eq {β : Type} (draw : Stream → β) (n : Nat) (s : Stream) :
    s.draws draw n = ((List.range n).map fun i => draw (s.advanceBy i), s.advanceBy n) := by
  induction n generalizing s with
  | zero => rfl
  | succ n ih =>
    rw [draws, ih, List.range_succ_eq_map, List.map_cons, List.map_map]
    rfl

theorem draws_snd {β : Type} (draw : Stream → β) (n : Nat) (s : Stream) :
    (s.draws draw n).2 = s.advanceBy n := by
  rw [draws_eq]

theorem pick_snd (weights : List Float) (s : Stream) :
    (s.pick weights).2 = s.advance ∨ (s.pick weights).2 = s := by
  simp only [pick]
  split
  · exact .inl rfl
  · exact .inr rfl

theorem picks_snd (weights : List Float) (n : Nat) (s : Stream) :
    ∃ k, (s.picks weights n).2 = s.advanceBy k := by
  induction n generalizing s with
  | zero => exact ⟨0, rfl⟩
  | succ n ih =>
    obtain ⟨k, hk⟩ := ih (s.pick weights).2
    rcases pick_snd weights s with h | h
    · exact ⟨k + 1, hk.trans (by rw [h]; rfl)⟩
    · exact ⟨k, hk.trans (by rw [h])⟩

end Stream

/-- Whether a request draws from its stream or forks it. Only `load` does not go on from it. -/
def Request.goesOn : Request → Bool
  | .load _ => false
  | _ => true

namespace Stream

theorem serve_follows {count : Nat} {s s' : Stream} {r : Request} {answer : Answer}
    {added : Option Stream} (hr : r.goesOn) (h : s.serve count r = .ok (answer, s', added)) :
    (∃ n, s' = s.advanceBy n) ∧ ∀ t ∈ added, t = s.child ∨ t = s := by
  cases r with
  | words n => cases h; exact ⟨⟨n, draws_snd _ n s⟩, nofun⟩
  | singles n => cases h; exact ⟨⟨n, draws_snd _ n s⟩, nofun⟩
  | doubles n => cases h; exact ⟨⟨n, draws_snd _ n s⟩, nofun⟩
  | chances p n => cases h; exact ⟨⟨n, draws_snd _ n s⟩, nofun⟩
  | within low high n =>
    rw [serve] at h
    split at h
    · cases h; exact ⟨⟨n, draws_snd _ n s⟩, nofun⟩
    · cases h
  | picks weights n => cases h; exact ⟨picks_snd weights n s, nofun⟩
  | skip n => cases h; exact ⟨⟨n, rfl⟩, nofun⟩
  | fork =>
    cases h
    exact ⟨⟨1, rfl⟩, fun t ht => .inl (Option.some.inj ht).symm⟩
  | copy =>
    cases h
    exact ⟨⟨0, rfl⟩, fun t ht => .inr (Option.some.inj ht).symm⟩
  | save => cases h; exact ⟨⟨0, rfl⟩, nofun⟩
  | load text => cases hr

end Stream

/-! ## Banks -/

namespace Bank

/-- No stream of the bank is the stream of zeros. -/
def Nonzero (bank : Bank) : Prop := ∀ s ∈ bank, s ≠ Stream.zero

/-- The bank after some requests, each to the stream of a number. A request that fails, and one to
a number that no stream has, changes nothing. -/
def after (bank : Bank) : List (Nat × Request) → Bank
  | [] => bank
  | (index, request) :: requests =>
    match bank.serve? index request with
    | some (.ok (_, bank')) => bank'.after requests
    | _ => bank.after requests

theorem serve?_nonzero {bank bank' : Bank} {index : Nat} {r : Request} {answer : Answer}
    (hbank : bank.Nonzero) (hr : r.goesOn) (h : bank.serve? index r = some (.ok (answer, bank'))) :
    bank'.Nonzero := by
  obtain ⟨s, hs, hserve⟩ := Option.map_eq_some_iff.mp h
  cases hok : s.serve bank.size r with
  | error f => rw [hok] at hserve; cases hserve
  | ok result =>
    obtain ⟨_, s', added⟩ := result
    rw [hok] at hserve
    cases hserve
    obtain ⟨⟨n, rfl⟩, hadded⟩ := Stream.serve_follows hr hok
    have hs : s ≠ Stream.zero := hbank s (Array.mem_of_getElem? hs)
    intro t ht
    rcases Array.mem_append.mp ht with ht | ht
    · rcases Array.mem_or_eq_of_mem_setIfInBounds ht with ht | rfl
      · exact hbank t ht
      · exact Stream.advanceBy_ne_zero hs n
    · rcases hadded t (by simpa using ht) with rfl | rfl
      · exact Stream.ofSeed_ne_zero _
      · exact hs

theorem after_of_nonzero {bank : Bank} {requests : List (Nat × Request)} (hbank : bank.Nonzero)
    (hrequests : ∀ request ∈ requests, request.2.goesOn) : (bank.after requests).Nonzero := by
  induction requests generalizing bank with
  | nil => exact hbank
  | cons request requests ih =>
    obtain ⟨hrequest, hrequests⟩ := List.forall_mem_cons.mp hrequests
    rw [after]
    split
    next h => exact ih (serve?_nonzero hbank hrequest h) hrequests
    · exact ih hbank hrequests

/-- No draw or fork, in any number and of any stream that was forked before, leads from a seed to
the stream of zeros, and no steps lead there from any other stream. It would answer zero forever. -/
theorem after_nonzero (seed : UInt64) (requests : List (Nat × Request))
    (hrequests : ∀ request ∈ requests, request.2.goesOn) :
    Nonzero (after #[Stream.ofSeed seed] requests) ∧
    (∀ s : Stream, s ≠ .zero → ∀ n, s.advanceBy n ≠ .zero) ∧
    ∀ n, Stream.zero.advanceBy n = .zero ∧ (Stream.zero.advanceBy n).output = 0 := by
  refine ⟨after_of_nonzero (fun s hs => ?_) hrequests, fun s => Stream.advanceBy_ne_zero,
    fun n => ?_⟩
  · rw [Array.mem_singleton.mp hs]
    exact Stream.ofSeed_ne_zero seed
  · rw [Stream.advanceBy_zero]
    exact ⟨rfl, by decide⟩

/-- A stream is drawn from and forked, and its child is drawn from and forked. -/
def grandchild : List (Nat × Request) :=
  [(0, .words 2), (0, .fork), (1, .picks [1, 3] 2), (1, .within 0 1 1), (1, .fork), (2, .skip 1)]

theorem after_nonzero_grandchild : (∀ request ∈ grandchild, request.2.goesOn) ∧
    (after #[Stream.ofSeed 7] grandchild).size = 3 ∧
    Nonzero (after #[Stream.ofSeed 7] grandchild) := by
  have hgoesOn : ∀ request ∈ grandchild, request.2.goesOn := by
    simp [grandchild, Request.goesOn]
  exact ⟨hgoesOn, by decide +kernel, (after_nonzero 7 grandchild hgoesOn).1⟩

end Bank

end Espalier
