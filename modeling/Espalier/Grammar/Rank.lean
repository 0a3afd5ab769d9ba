/-!
# Ranks of level-numbered work

Work items carry levels, and an item of some level is replaced by any number of items one level
deeper, down to a fixed bound. This ends: the numbers of items per level, read from the top level
down, fall lexicographically; items below the bound are only ever removed.

Main statement: `WorkRank.ofLevels_replace`.
-/

namespace Espalier

/-- Numbers of items on `n` consecutive levels, the top level first. -/
def Rank : Nat → Type
  | 0 => Unit
  | n + 1 => Nat × Rank n

namespace Rank

/-- Ranks are compared at the topmost level where they differ. -/
@[reducible] def wellFounded : (n : Nat) → WellFoundedRelation (Rank n)
  | 0 => ⟨emptyRelation, emptyWf.wf⟩
  | n + 1 => @Prod.instWellFoundedRelation Nat (Rank n) inferInstance (wellFounded n)

instance (n : Nat) : WellFoundedRelation (Rank n) := wellFounded n

/-- The numbers of items on the `n` levels from `top` on. -/
def ofLevels : (n : Nat) → (top : Nat) → (levels : List Nat) → Rank n
  | 0, _, _ => ()
  | n + 1, top, levels => (levels.count top, ofLevels n (top + 1) levels)

theorem ofLevels_congr {old new : List Nat} : {n top : Nat} →
    (∀ k, top ≤ k → k < top + n → new.count k = old.count k) →
    ofLevels n top new = ofLevels n top old
  | 0, _, _ => rfl
  | n + 1, top, h => by
    simp only [ofLevels]
    rw [h top (Nat.le_refl _) (by omega),
      ofLevels_congr fun k hk hk' => h k (by omega) (by omega)]

theorem ofLevels_lt {old new : List Nat} (level : Nat) : {n top : Nat} →
    top ≤ level → level < top + n →
    (∀ k, top ≤ k → k < level → new.count k = old.count k) →
    new.count level < old.count level →
    WellFoundedRelation.rel (ofLevels n top new) (ofLevels n top old)
  | 0, _, h, h', _, _ => by omega
  | n + 1, top, h, h', hbelow, hat => by
    rcases Nat.eq_or_lt_of_le h with rfl | hlt
    · exact Prod.Lex.left _ _ hat
    · simp only [ofLevels]
      rw [hbelow top (Nat.le_refl _) hlt]
      exact Prod.Lex.right _
        (ofLevels_lt level hlt (by omega) (fun k hk hk' => hbelow k (by omega) hk') hat)

end Rank

/-- The rank of the levels of some work items, down to `bound`, and the number of all items. -/
def WorkRank (bound : Nat) : Type := Rank (bound + 1) × Nat

namespace WorkRank

instance (bound : Nat) : WellFoundedRelation (WorkRank bound) :=
  @Prod.instWellFoundedRelation (Rank (bound + 1)) Nat inferInstance inferInstance

/-- The rank of work items with the given levels. -/
def ofLevels (bound : Nat) (levels : List Nat) : WorkRank bound :=
  (Rank.ofLevels (bound + 1) 0 levels, levels.length)

/-- Replacing an item by items one level deeper lowers the rank, as long as an item below the bound
is replaced by nothing. -/
theorem ofLevels_replace {bound level : Nat} {rest added : List Nat}
    (deeper : ∀ k ∈ added, k = level + 1) (bounded : bound < level → added = []) :
    WellFoundedRelation.rel (ofLevels bound (rest ++ added)) (ofLevels bound (level :: rest)) := by
  have count_added : ∀ k, k ≤ level → added.count k = 0 := fun k hk =>
    List.count_eq_zero.2 fun hmem => by have := deeper k hmem; omega
  by_cases h : level ≤ bound
  · refine Prod.Lex.left _ _
      (Rank.ofLevels_lt level (Nat.zero_le _) (by omega) ?_ ?_)
    · intro k _ hk
      rw [List.count_append, count_added k (Nat.le_of_lt hk),
        List.count_cons_of_ne (Nat.ne_of_gt hk), Nat.add_zero]
    · rw [List.count_append, count_added level (Nat.le_refl _), List.count_cons_self]
      omega
  · obtain rfl := bounded (by omega)
    have heq : Rank.ofLevels (bound + 1) 0 (rest ++ []) =
        Rank.ofLevels (bound + 1) 0 (level :: rest) := by
      refine Rank.ofLevels_congr fun k _ hk => ?_
      have : level ≠ k := by omega
      rw [List.append_nil, List.count_cons_of_ne this]
    simp only [ofLevels, heq]
    refine Prod.Lex.right _ ?_
    simp only [List.append_nil, List.length_cons]
    exact Nat.lt_succ_self _

theorem ofLevels_tail {bound level : Nat} {rest : List Nat} :
    WellFoundedRelation.rel (ofLevels bound rest) (ofLevels bound (level :: rest)) := by
  have h : WellFoundedRelation.rel (ofLevels bound (rest ++ []))
      (ofLevels bound (level :: rest)) := ofLevels_replace (by simp) (by simp)
  rwa [List.append_nil] at h

end WorkRank

end Espalier
