import Espalier.Proofs.Scalar.Positive
import Espalier.Random.Draw

/-!
# Choices by weight

A choice walks through the weights and takes each usable one off what is left of the draw, until one
exceeds it. However the differences are rounded, the walk ends at a usable weight: the one that
exceeds the rest, or the last one if a sliver is left behind it.

Whether there is a walk at all is up to the total. Usable weights add up to more than zero, but they
may add up to more than a double can hold, and then nothing is chosen.

Results:
1. `bucket_usable`, `exists_bucket`: from any rest, the walk ends at a usable weight if there is one.
2. `usableTotal_pos_iff`: the total is above zero if any weight is usable.
3. `pick_eq_none_iff`: what makes a choice come up empty.
4. `pick_usable`: what is chosen is usable, and how many words it takes.
-/

namespace Espalier.Stream

variable {weights ws : List Float} {rest sum : Float} {last : Option Nat} {i k : Nat}

/-! ## The walk -/

/-- The list has a usable weight at a place. -/
def UsableAt (weights : List Float) (k : Nat) : Prop := ∃ w, weights[k]? = some w ∧ isUsable w

/-- The walk goes on to a usable weight, or back to the last one that it has passed. -/
theorem bucket_usable_of_last (hlast : ∀ k, last = some k → UsableAt weights k)
    (hws : weights.drop i = ws) (h : bucket rest last i ws = some k) : UsableAt weights k := by
  -- Induction on the weights ahead; the one kept in `last` is usable at every step.
  induction ws generalizing rest last i with
  | nil => exact hlast k h
  | cons w ws ih =>
    have hw : weights[i]? = some w := by
      rw [← List.head?_drop, hws, List.head?_cons]
    have hnext : weights.drop (i + 1) = ws := by
      rw [← List.tail_drop, hws, List.tail_cons]
    rw [bucket] at h
    split at h
    next husable =>
      have hi : UsableAt weights i := ⟨w, hw, husable⟩
      split at h
      · cases h
        exact hi
      · refine ih (fun j hj => ?_) hnext h
        cases hj
        exact hi
    · exact ih hlast hnext h

/-- From any rest, the walk ends at a usable weight. -/
theorem bucket_usable (h : bucket rest none 0 weights = some k) : UsableAt weights k := by
  have hlast : ∀ j, none = some j → UsableAt weights j := fun j hj => nomatch hj
  exact bucket_usable_of_last hlast List.drop_zero h

/-- From any rest, the walk ends somewhere if there is a usable weight. -/
theorem exists_bucket (h : last.isSome ∨ ∃ w ∈ ws, isUsable w) :
    ∃ k, bucket rest last i ws = some k := by
  induction ws generalizing rest last i with
  | nil =>
    rcases h with h | ⟨w, hw, -⟩
    · exact Option.isSome_iff_exists.mp h
    · cases hw
  | cons w ws ih =>
    rw [bucket]
    split
    · split
      · exact ⟨i, rfl⟩
      · exact ih (.inl rfl)
    next hunusable =>
      refine ih (h.imp_right fun ⟨v, hv, husable⟩ => ?_)
      rcases List.mem_cons.mp hv with rfl | hv
      · exact absurd husable hunusable
      · exact ⟨v, hv, husable⟩

/-! ## The total -/

theorem foldl_add_pos (hsum : 0 < sum) (hws : ∀ w ∈ ws, 0 < w) : 0 < ws.foldl (· + ·) sum := by
  induction ws generalizing sum with
  | nil => exact hsum
  | cons w ws ih =>
    obtain ⟨hw, hws⟩ := List.forall_mem_cons.mp hws
    exact ih (double_add_pos (.inr hsum) hw) hws

/-- The total is above zero as soon as one weight is usable. -/
theorem usableTotal_pos_iff : 0 < usableTotal weights ↔ ∃ w ∈ weights, isUsable w := by
  have hpos : ∀ w ∈ weights.filter isUsable, 0 < w := fun w hw =>
    (isUsable_iff.mp (List.of_mem_filter hw)).2
  rw [usableTotal]
  cases hfilter : weights.filter isUsable with
  | nil =>
    have hnone := List.filter_eq_nil_iff.mp hfilter
    refine iff_of_false (double_lt_irrefl 0) ?_
    rintro ⟨w, hw, husable⟩
    exact hnone w hw husable
  | cons w ws =>
    rw [hfilter] at hpos
    obtain ⟨hw, hws⟩ := List.forall_mem_cons.mp hpos
    have hmem : w ∈ weights.filter isUsable := hfilter ▸ List.mem_cons_self
    have hfirst : 0 < 0 + w := double_add_pos (.inl rfl) hw
    rw [List.foldl_cons]
    exact iff_of_true (foldl_add_pos hfirst hws)
      ⟨w, List.mem_of_mem_filter hmem, List.of_mem_filter hmem⟩

/-! ## The choice -/

/-- A choice takes a word and finds a usable weight, or it takes none and finds nothing. It depends
on the total which. -/
theorem pick_cases (weights : List Float) (s : Stream) :
    (isUsable (usableTotal weights) ∧
      ∃ k, UsableAt weights k ∧ s.pick weights = (some k, s.advance)) ∨
    (isUsable (usableTotal weights) = false ∧ s.pick weights = (none, s)) := by
  have hpick : s.pick weights = if isUsable (usableTotal weights) then
      (bucket (s.unitDouble * usableTotal weights) none 0 weights, s.advance) else (none, s) := rfl
  cases htotal : isUsable (usableTotal weights) with
  | false => exact .inr ⟨rfl, by rw [hpick, htotal]; rfl⟩
  | true =>
    obtain ⟨-, hpos⟩ := isUsable_iff.mp htotal
    have hwalk : ∃ k, bucket (s.unitDouble * usableTotal weights) none 0 weights = some k :=
      exists_bucket (.inr (usableTotal_pos_iff.mp hpos))
    obtain ⟨k, hk⟩ := hwalk
    refine .inl ⟨rfl, k, bucket_usable hk, ?_⟩
    rw [hpick, htotal, if_pos rfl, hk]

/-- Nothing is chosen if no weight is usable, or if the usable weights add up to more than a double
can hold. -/
theorem pick_eq_none_iff {s : Stream} : (s.pick weights).1 = none ↔
    (∀ w ∈ weights, ¬isUsable w) ∨ ¬(usableTotal weights).isFinite := by
  have htotal : isUsable (usableTotal weights) ↔
      (usableTotal weights).isFinite ∧ ∃ w ∈ weights, isUsable w := by
    rw [isUsable_iff, usableTotal_pos_iff]
  rcases pick_cases weights s with ⟨husable, k, -, hpick⟩ | ⟨hunusable, hpick⟩
  · rw [hpick]
    obtain ⟨hfinite, w, hw, hwusable⟩ := htotal.mp husable
    simp only [reduceCtorEq, false_iff, not_or, not_not]
    exact ⟨fun hnone => hnone w hw hwusable, hfinite⟩
  · rw [hpick]
    refine iff_of_true rfl ?_
    by_contra hcontra
    push Not at hcontra
    rw [htotal.mpr hcontra.symm] at hunusable
    cases hunusable

/-- For any weights, usable or not: a choice that finds something finds a finite positive weight of
the list and takes one word, and one that finds nothing takes none. It finds something if a weight
is usable and the usable ones do not add up to too much. The walk ends at a usable weight whatever
it starts with, so also if rounding carries it past the last one. -/
theorem pick_usable (weights : List Float) (s : Stream) :
    (∀ k s', s.pick weights = (some k, s') →
      s' = s.advance ∧ ∃ h : k < weights.length, weights[k].isFinite ∧ 0 < weights[k]) ∧
    (∀ s', s.pick weights = (none, s') → s' = s) ∧
    ((s.pick weights).1.isSome ↔
      (∃ w ∈ weights, w.isFinite ∧ 0 < w) ∧ (usableTotal weights).isFinite) ∧
    ∀ rest k, bucket rest none 0 weights = some k →
      ∃ h : k < weights.length, weights[k].isFinite ∧ 0 < weights[k] := by
  have hplace : ∀ k, UsableAt weights k →
      ∃ h : k < weights.length, weights[k].isFinite ∧ 0 < weights[k] := by
    rintro k ⟨w, hw, husable⟩
    obtain ⟨hk, rfl⟩ := List.getElem?_eq_some_iff.mp hw
    exact ⟨hk, isUsable_iff.mp husable⟩
  refine ⟨fun k s' h => ?_, fun s' h => ?_, ?_, fun rest k h => hplace k (bucket_usable h)⟩
  · rcases pick_cases weights s with ⟨-, j, hj, hpick⟩ | ⟨-, hpick⟩ <;> rw [hpick] at h <;> cases h
    exact ⟨rfl, hplace k hj⟩
  · rcases pick_cases weights s with ⟨-, j, -, hpick⟩ | ⟨-, hpick⟩ <;> rw [hpick] at h <;> cases h
    rfl
  · rw [← Option.ne_none_iff_isSome, ne_eq, pick_eq_none_iff]
    simp [isUsable_iff]

end Espalier.Stream
