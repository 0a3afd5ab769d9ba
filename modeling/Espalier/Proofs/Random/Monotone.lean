import Espalier.Proofs.Random.Choice
import Espalier.Proofs.Scalar.Arithmetic

/-!
# A larger draw chooses a later weight

Two choices from the same weights walk through the same places. The one with the smaller draw has
the smaller rest at each, since the rests come from multiplying by one total and from taking the
same weights off, and both operations keep the order of doubles. So it is the first to find a weight
that exceeds its rest, and the walk that goes on can only end behind it, or at the same place if it
runs over the end and falls back.

The draws that choose an alternative hence lie together, and those of a later alternative lie above,
with rounding at every step.

Results:
1. `bucket_mono`: from a larger rest, the walk ends no earlier.
2. `bucket_of_below`: a rest below all usable weights ends at the first one.
3. `pick_monotone`: the choices by draw.
-/

namespace Espalier.Stream

variable {weights ws : List Float} {rest rest' : Float} {last : Option Nat} {i j k k' : Nat}

/-! ## Two walks -/

/-- A walk does not end before the last usable weight that it has passed. -/
theorem le_bucket (hji : j ≤ i) (h : bucket rest (some j) i ws = some k) : j ≤ k := by
  induction ws generalizing rest j i with
  | nil =>
    cases h
    exact le_rfl
  | cons w ws ih =>
    rw [bucket] at h
    split at h
    · split at h
      · cases h
        exact hji
      · exact hji.trans (ih (Nat.le_succ i) h)
    · exact ih (hji.trans (Nat.le_succ i)) h

/-- From a larger rest, the walk ends no earlier. -/
theorem bucket_mono (hrest : rest ≤ rest') (h : bucket rest last i ws = some k)
    (h' : bucket rest' last i ws = some k') : k ≤ k' := by
  -- Induction on the weights ahead; the rests stay in order until the smaller one is exceeded.
  induction ws generalizing rest rest' last i with
  | nil =>
    rw [bucket] at h h'
    rw [h] at h'
    cases h'
    exact le_rfl
  | cons w ws ih =>
    rw [bucket] at h h'
    split at h
    next husable =>
      rw [if_pos husable] at h'
      split at h
      · cases h
        split at h'
        · cases h'
          exact le_rfl
        · exact le_bucket (Nat.le_succ _) h'
      next hrests =>
        rw [if_neg fun hlt => hrests (double_lt_of_le_of_lt hrest hlt)] at h'
        exact ih (double_sub_le_sub (isUsable_iff.mp husable).1 hrest) h h'
    next hunusable =>
      rw [if_neg hunusable] at h'
      exact ih hrest h h'

/-- A rest below all usable weights ends at the first of them. -/
theorem bucket_of_below (h : ∀ w ∈ ws, isUsable w → rest < w) :
    bucket rest none i ws = (ws.findIdx? isUsable).map (· + i) := by
  induction ws generalizing i with
  | nil => rfl
  | cons w ws ih =>
    obtain ⟨hw, hws⟩ := List.forall_mem_cons.mp h
    rw [bucket, List.findIdx?_cons]
    split
    next husable => rw [if_pos (hw husable), Option.map_some, Nat.zero_add]
    · rw [ih hws, Option.map_map]
      congr 1
      funext n
      exact (Nat.succ_add_eq_add_succ n i).symm

/-! ## The draw -/

theorem unitDouble_number (s : Stream) : s.unitDouble.isNaN = false := by
  have hscale : (9007199254740992 : UInt64).toFloat.isFinite ∧
      0 < (9007199254740992 : UInt64).toFloat := by
    decide +kernel
  exact double_div_number (double_ofUInt64_number _) hscale.1 hscale.2

/-- From weights with a finite positive total, something is always chosen, and a larger draw chooses
no earlier place. So the draws that choose one place are an interval of all draws, those that choose
an earlier place lie below those that choose a later one, and the draw zero chooses the first weight
that is finite and positive. -/
theorem pick_monotone (hfinite : (usableTotal weights).isFinite)
    (hpos : 0 < usableTotal weights) :
    (∀ s s' : Stream, s.unitDouble ≤ s'.unitDouble →
      ∃ k k', (s.pick weights).1 = some k ∧ (s'.pick weights).1 = some k' ∧ k ≤ k') ∧
    (∀ s₁ s₂ s₃ : Stream, s₁.unitDouble ≤ s₂.unitDouble → s₂.unitDouble ≤ s₃.unitDouble →
      ∀ k, (s₁.pick weights).1 = some k → (s₃.pick weights).1 = some k →
        (s₂.pick weights).1 = some k) ∧
    (∀ s s' : Stream, ∀ k k', (s.pick weights).1 = some k → (s'.pick weights).1 = some k' →
      k < k' → s.unitDouble < s'.unitDouble) ∧
    ∀ s : Stream, s.unitDouble = 0 → (s.pick weights).1 = weights.findIdx? isUsable := by
  have hpick : ∀ s : Stream, (s.pick weights).1 =
      bucket (s.unitDouble * usableTotal weights) none 0 weights := by
    intro s
    rw [pick, if_pos (by simp [hfinite, hpos])]
  have hfound : ∀ s : Stream, ∃ k, (s.pick weights).1 = some k := by
    intro s
    rw [hpick]
    exact exists_bucket (.inr (usableTotal_pos_iff.mp hpos))
  have hmono : ∀ {s s' : Stream} {k k'}, s.unitDouble ≤ s'.unitDouble →
      (s.pick weights).1 = some k → (s'.pick weights).1 = some k' → k ≤ k' := by
    intro s s' k k' hle hk hk'
    rw [hpick] at hk hk'
    exact bucket_mono (double_mul_le_mul hfinite hpos hle) hk hk'
  refine ⟨fun s s' hle => ?_, fun s₁ s₂ s₃ h₁₂ h₂₃ k h₁ h₃ => ?_, fun s s' k k' hk hk' hlt => ?_,
    fun s hzero => ?_⟩
  · obtain ⟨k, hk⟩ := hfound s
    obtain ⟨k', hk'⟩ := hfound s'
    exact ⟨k, k', hk, hk', hmono hle hk hk'⟩
  · obtain ⟨j, h₂⟩ := hfound s₂
    rw [h₂, le_antisymm (hmono h₂₃ h₂ h₃) (hmono h₁₂ h₁ h₂)]
  · by_contra hnot
    have hle := double_le_of_not_lt s'.unitDouble_number s.unitDouble_number hnot
    exact absurd (hmono hle hk' hk) (not_le.mpr hlt)
  · rw [hpick, hzero, double_zero_mul hfinite hpos,
      bucket_of_below fun w _ husable => (isUsable_iff.mp husable).2]
    simp

/-- Four weights, of which the second and the last are usable. Three streams draw more and more, and
the lowest and the highest choose the second weight, so the middle one does. One that draws zero
chooses it too, and one that chooses the last weight has drawn more. -/
theorem pick_monotone_of_four :
    let weights : List Float := [0, 1, -1, 2]
    (usableTotal weights).isFinite ∧ 0 < usableTotal weights ∧
    (ofSeed 10).unitDouble ≤ (ofSeed 5).unitDouble ∧
    (ofSeed 5).unitDouble ≤ (ofSeed 0).unitDouble ∧
    ((ofSeed 10).pick weights).1 = some 1 ∧ ((ofSeed 5).pick weights).1 = some 1 ∧
    ((ofSeed 0).pick weights).1 = some 1 ∧ ((ofSeed 1).pick weights).1 = some 3 ∧
    (ofSeed 0).unitDouble < (ofSeed 1).unitDouble ∧
    (Stream.mk 0 1 0 0).unitDouble = 0 ∧ ((Stream.mk 0 1 0 0).pick weights).1 = some 1 := by
  intro weights
  have hfinite : (usableTotal weights).isFinite := by decide +kernel
  have hpos : 0 < usableTotal weights := by decide +kernel
  have hlow : (ofSeed 10).unitDouble ≤ (ofSeed 5).unitDouble := by decide +kernel
  have hhigh : (ofSeed 5).unitDouble ≤ (ofSeed 0).unitDouble := by decide +kernel
  have hlowest : ((ofSeed 10).pick weights).1 = some 1 := by decide +kernel
  have hhighest : ((ofSeed 0).pick weights).1 = some 1 := by decide +kernel
  have habove : ((ofSeed 1).pick weights).1 = some 3 := by decide +kernel
  have hzero : (Stream.mk 0 1 0 0).unitDouble = 0 := by decide +kernel
  have hfirst : weights.findIdx? isUsable = some 1 := by decide +kernel
  obtain ⟨-, hbetween, hbelow, hdraw⟩ := pick_monotone hfinite hpos
  exact ⟨hfinite, hpos, hlow, hhigh, hlowest, hbetween _ _ _ hlow hhigh 1 hlowest hhighest,
    hhighest, habove, hbelow _ _ 1 3 hhighest habove (by decide), hzero,
    (hdraw _ hzero).trans hfirst⟩

end Espalier.Stream
