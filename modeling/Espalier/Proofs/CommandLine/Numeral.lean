import Espalier.CommandLine
import Espalier.Proofs.Json.Literal

/-!
# Numerals

What may stand behind a flag that takes a number: decimal digits, at least one, behind a plus sign
or not, for a number below some bound. There may be zeros in front; a minus sign, spaces or other
digits there may not.

Main statement: `count?_eq_some`.
-/

namespace Espalier

namespace CommandLine

open Json.Number (digits digits_eq_iff natOfDigits)

/-- The text is a decimal numeral for a number below the bound, behind a plus sign or not. -/
def Numeral (bound : Nat) (text : String) (n : Nat) : Prop :=
  n < bound ∧ ∃ ds : List Nat, ds ≠ [] ∧ (∀ d ∈ ds, d < 10) ∧ natOfDigits ds = n ∧
    (text.toList = ds.map Nat.digitChar ∨ text.toList = '+' :: ds.map Nat.digitChar)

/-- The text behind a plus sign, or all of it. -/
def unsigned : List Char → List Char
  | '+' :: cs => cs
  | cs => cs

theorem unsigned_of_ne {c : Char} (cs : List Char) (h : c ≠ '+') :
    unsigned (c :: cs) = c :: cs := by
  unfold unsigned
  split
  next heq => exact absurd (List.cons.inj heq).1 h
  · rfl

theorem plus_not_digit {ds : List Nat} (h : ∀ d ∈ ds, d < 10) :
    '+' ∉ ds.map Nat.digitChar := by
  intro hmem
  obtain ⟨d, hd, hplus⟩ := List.mem_map.mp hmem
  have hcode := Nat.toNat_digitChar_of_lt_ten (h d hd)
  rw [hplus] at hcode
  have hlow : 48 ≤ '+'.toNat := hcode ▸ Nat.le_add_right 48 d
  exact absurd hlow (by decide)

theorem unsigned_eq_iff {cs : List Char} {ds : List Nat} (h : ∀ d ∈ ds, d < 10) :
    unsigned cs = ds.map Nat.digitChar ↔
      cs = ds.map Nat.digitChar ∨ cs = '+' :: ds.map Nat.digitChar := by
  cases cs with
  | nil => simp [unsigned]
  | cons c cs =>
    by_cases hc : c = '+'
    · subst hc
      have hplus : '+' :: cs ≠ ds.map Nat.digitChar := fun heq =>
        plus_not_digit h (heq ▸ List.mem_cons_self)
      simp [unsigned, hplus]
    · rw [unsigned_of_ne cs hc]
      simp [hc]

/-- A number is read off its numerals and off no other text. -/
theorem count?_eq_some {bound n : Nat} {text : String} :
    count? bound text = some n ↔ Numeral bound text n := by
  simp only [count?]
  constructor
  · intro h
    split at h
    next d ds hdigits =>
      obtain ⟨heq, hlt⟩ := Option.filter_eq_some_iff.mp h
      obtain ⟨hds, htext⟩ := digits_eq_iff.mp hdigits
      exact ⟨of_decide_eq_true hlt, d :: ds, List.cons_ne_nil _ _, hds, Option.some.inj heq,
        (unsigned_eq_iff hds).mp htext⟩
    · cases h
  · rintro ⟨hlt, ds, hne, hds, rfl, htext⟩
    have hdigits : digits (unsigned text.toList) = (ds, []) :=
      digits_eq_iff.mpr ⟨hds, (unsigned_eq_iff hds).mpr htext⟩
    obtain ⟨d, ds, rfl⟩ := List.exists_cons_of_ne_nil hne
    split
    next hsome =>
      cases hdigits.symm.trans hsome
      exact Option.filter_eq_some_iff.mpr ⟨rfl, decide_eq_true hlt⟩
    next hnone => exact (hnone d ds hdigits).elim

example : count? 100 "+007" = some 7 := by rfl

end CommandLine

end Espalier
