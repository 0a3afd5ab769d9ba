import Mathlib.Data.List.Basic
import Mathlib.Data.List.Induction

/-!
# The first of the least

A search for the least goes through a list and keeps what it has found until something less comes
up. So of equals it keeps the first.

Main statement: `foldl_firstLeast`.
-/

namespace Espalier

variable {β : Type} {less : β → β → Prop} {keep : β → β → β}

/-- Nothing in the list is less, and what stands before it is more. -/
def FirstLeast (less : β → β → Prop) (all : List β) (best : β) : Prop :=
  ∃ before after, all = before ++ best :: after ∧ (∀ b ∈ before, less best b) ∧
    ∀ b ∈ after, ¬less b best

theorem FirstLeast.index {all : List β} {best : β} (h : FirstLeast less all best) :
    ∃ i : Nat, all[i]? = some best ∧ ∀ (j : Nat) b, all[j]? = some b →
      (j < i → less best b) ∧ (i < j → ¬less b best) := by
  obtain ⟨before, after, rfl, hbefore, hafter⟩ := h
  refine ⟨before.length, by simp, fun j b hj => ⟨fun hlt => ?_, fun hlt => ?_⟩⟩
  · rw [List.getElem?_append_left hlt] at hj
    exact hbefore b (List.mem_of_getElem? hj)
  · obtain ⟨k, rfl⟩ := Nat.exists_eq_add_of_lt hlt
    rw [Nat.add_assoc, List.getElem?_append_right (Nat.le_add_right _ _), Nat.add_sub_cancel_left,
      List.getElem?_cons_succ] at hj
    exact hafter b (List.mem_of_getElem? hj)

/-- The least is what the list begins with, or less than that. -/
theorem FirstLeast.head_or {first best : β} {rest : List β}
    (h : FirstLeast less (first :: rest) best) : best = first ∨ best ∈ rest ∧ less best first := by
  obtain ⟨before, after, hsplit, hbefore, -⟩ := h
  cases before with
  | nil => exact .inl (List.cons.inj hsplit).1.symm
  | cons b before =>
    obtain ⟨rfl, hrest⟩ := List.cons.inj hsplit
    exact .inr ⟨hrest ▸ List.mem_append_right _ List.mem_cons_self, hbefore _ List.mem_cons_self⟩

theorem FirstLeast.not_less {all : List β} {best : β} (h : FirstLeast less all best)
    (hasymm : ∀ a b, less a b → ¬less b a) {b : β} (hb : b ∈ all) : ¬less b best := by
  obtain ⟨before, after, rfl, hbefore, hafter⟩ := h
  rcases List.mem_append.mp hb with hb | hb
  · exact hasymm _ _ (hbefore b hb)
  rcases List.mem_cons.mp hb with rfl | hb
  · exact fun h => hasymm b b h h
  · exact hafter b hb

/-- The best so far is the first of the least so far. What is not less than a bound has to be more
than all that is. -/
theorem foldl_firstLeast (hless : ∀ best next, less next best → keep best next = next)
    (hmore : ∀ best next, ¬less next best → keep best next = best)
    (htrans : ∀ a b c, less a b → less b c → less a c) (first : β) (rest : List β)
    (hweak : ∀ c ∈ first :: rest, ∀ a b, less a b → ¬less c b → less a c) :
    FirstLeast less (first :: rest) (rest.foldl keep first) := by
  induction rest using List.reverseRecOn with
  | nil => exact ⟨[], [], rfl, nofun, nofun⟩
  | append_singleton rest next ih =>
    rw [← List.cons_append] at hweak ⊢
    obtain ⟨before, after, hsplit, hbefore, hafter⟩ :=
      ih fun c hc => hweak c (List.mem_append_left _ hc)
    rw [List.foldl_concat]
    generalize rest.foldl keep first = best at *
    by_cases hnext : less next best
    · rw [hless best next hnext]
      refine ⟨first :: rest, [], rfl, fun c hc => ?_, nofun⟩
      have hc' := hweak c (List.mem_append_left _ hc)
      rw [hsplit] at hc
      rcases List.mem_append.mp hc with hc | hc
      · exact htrans next best c hnext (hbefore c hc)
      rcases List.mem_cons.mp hc with rfl | hc
      · exact hnext
      · exact hc' next best hnext (hafter c hc)
    · rw [hmore best next hnext]
      refine ⟨before, after ++ [next], ?_, hbefore, fun c hc => ?_⟩
      · rw [hsplit, List.append_assoc, List.cons_append]
      · rcases List.mem_append.mp hc with hc | hc
        · exact hafter c hc
        · rwa [List.mem_singleton.mp hc]

end Espalier
