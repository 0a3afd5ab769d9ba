import Espalier.Proofs.Json.Members
import Mathlib.Data.List.Induction

/-!
# Counts as they are written

A count is written in decimal digits, with no zero in front of others, so there is one literal for
each. It is that literal that is read as the count, and no other: a sign, a fraction or an exponent
makes a number something else, even if it is worth the same.

Results:
1. `digits_eq_iff`: which texts are all digits.
2. `toDigits_natOfDigits`, `exists_plain`: digits without a zero in front are those of their value.
3. `writesCount_iff`: a text is read as a count if it is written for it.
-/

namespace Espalier.Json

namespace Number

variable {cs : List Char} {ds : List Nat} {k : Number} {n : Nat}

/-! ## Digits -/

theorem digit?_eq_some {c : Char} {d : Nat} :
    digit? c = some d ↔ d < 10 ∧ c = d.digitChar := by
  constructor
  · intro h
    unfold digit? at h
    split at h
    next hc =>
      have hlow : 48 ≤ c.toNat := hc.1
      have hhigh : c.toNat ≤ 57 := hc.2
      have hd : c.toNat - 48 = d := Option.some.inj h
      have hlt : d < 10 := by omega
      refine ⟨hlt, Char.toNat_inj.mp ?_⟩
      rw [Nat.toNat_digitChar_of_lt_ten hlt]
      omega
    · cases h
  · rintro ⟨hd, rfl⟩
    revert d
    decide

/-- A text is all digits if nothing follows its leading digits. -/
theorem digits_eq_iff : digits cs = (ds, []) ↔ (∀ d ∈ ds, d < 10) ∧ cs = ds.map Nat.digitChar := by
  induction cs generalizing ds with
  | nil =>
    cases ds with
    | nil => simp [digits]
    | cons d ds => simp [digits]
  | cons c cs ih =>
    rw [digits]
    constructor
    · intro h
      split at h
      next d hd =>
        obtain ⟨hlt, hc⟩ := digit?_eq_some.mp hd
        obtain ⟨rfl, hrest⟩ := Prod.mk.inj h
        obtain ⟨hds, hcs⟩ := ih.mp (Prod.ext rfl hrest : digits cs = ((digits cs).1, []))
        refine ⟨List.forall_mem_cons.mpr ⟨hlt, hds⟩, ?_⟩
        rw [List.map_cons, ← hc, ← hcs]
      · cases h
    · rintro ⟨hlt, hcs⟩
      cases ds with
      | nil => cases hcs
      | cons d ds =>
        obtain ⟨hd, hds⟩ := List.forall_mem_cons.mp hlt
        obtain ⟨hc, hcs⟩ := List.cons.inj hcs
        rw [digit?_eq_some.mpr ⟨hd, hc⟩, ih.mpr ⟨hds, hcs⟩]

/-- Digits as a literal has them before its point: at least one, and a zero only on its own. -/
structure Plain (ds : List Nat) : Prop where
  ne_nil : ds ≠ []
  lt_ten : ∀ d ∈ ds, d < 10
  zero_alone : ∀ rest, ds = 0 :: rest → rest = []

theorem natOfDigits_append (ds : List Nat) (d : Nat) :
    natOfDigits (ds ++ [d]) = 10 * natOfDigits ds + d := by
  simp [natOfDigits]

theorem le_foldl (n : Nat) (ds : List Nat) : n ≤ ds.foldl (fun n d => 10 * n + d) n := by
  induction ds generalizing n with
  | nil => exact Nat.le_refl n
  | cons d ds ih => exact Nat.le_trans (by omega) (ih (10 * n + d))

/-- Plain digits before a last one are worth something. -/
theorem Plain.front {d : Nat} (h : Plain (ds ++ [d])) (hds : ds ≠ []) :
    Plain ds ∧ 0 < natOfDigits ds := by
  obtain ⟨first, rest, rfl⟩ := List.exists_cons_of_ne_nil hds
  have hfirst : first ≠ 0 := by
    rintro rfl
    have hnone := h.zero_alone (rest ++ [d]) rfl
    simp at hnone
  have hle : first ≤ natOfDigits (first :: rest) := by
    simpa [natOfDigits] using le_foldl first rest
  refine ⟨⟨hds, fun d' hd' => h.lt_ten d' (List.mem_append_left _ hd'), ?_⟩,
    Nat.lt_of_lt_of_le (Nat.pos_of_ne_zero hfirst) hle⟩
  rintro _ ⟨⟩
  exact absurd rfl hfirst

/-- Plain digits are the digits of what they are worth. -/
theorem toDigits_natOfDigits (h : Plain ds) :
    Nat.toDigits 10 (natOfDigits ds) = ds.map Nat.digitChar := by
  -- Induction from the last digit, as the digits of a number are made. Those before it are plain.
  induction ds using List.reverseRecOn with
  | nil => exact absurd rfl h.ne_nil
  | append_singleton ds d ih =>
    have hd : d < 10 := h.lt_ten d (List.mem_append_right _ List.mem_cons_self)
    rw [natOfDigits_append, List.map_append]
    by_cases hds : ds = []
    · subst hds
      simpa [natOfDigits] using Nat.toDigits_of_lt_base hd
    · obtain ⟨hplain, hpos⟩ := h.front hds
      rw [← ih hplain, ← Nat.toDigits_append_toDigits (by decide) hpos hd,
        Nat.toDigits_of_lt_base hd]
      rfl

theorem exists_plain (n : Nat) : ∃ ds, Plain ds ∧ natOfDigits ds = n := by
  induction n using Nat.strongRecOn with
  | ind n ih =>
  by_cases hn : n < 10
  · refine ⟨[n], ⟨by simp, by simpa using hn, ?_⟩, by simp [natOfDigits]⟩
    rintro rest ⟨⟩
    rfl
  · obtain ⟨ds, hds, hvalue⟩ := ih (n / 10) (by omega)
    refine ⟨ds ++ [n % 10], ⟨by simp, ?_, ?_⟩, by rw [natOfDigits_append, hvalue]; omega⟩
    · simpa [or_imp, forall_and] using ⟨hds.lt_ten, Nat.mod_lt n (by decide)⟩
    · intro rest hrest
      obtain ⟨first, more, rfl⟩ := List.exists_cons_of_ne_nil hds.ne_nil
      obtain ⟨rfl, -⟩ := List.cons.inj hrest
      cases hds.zero_alone more rfl
      simp [natOfDigits] at hvalue
      omega

/-- The digits of a number are plain, and no other plain ones are worth it. -/
theorem eq_toDigits_iff : cs = Nat.toDigits 10 n ↔
    ∃ ds, Plain ds ∧ natOfDigits ds = n ∧ cs = ds.map Nat.digitChar := by
  constructor
  · rintro rfl
    obtain ⟨ds, hds, rfl⟩ := exists_plain n
    exact ⟨ds, hds, rfl, toDigits_natOfDigits hds⟩
  · rintro ⟨ds, hds, rfl, rfl⟩
    exact (toDigits_natOfDigits hds).symm

/-! ## Literals -/

theorem exponent?_eq_none (h : exponent? cs = some none) : cs = [] := by
  unfold exponent? at h
  split at h
  · rfl
  · split at h
    · dsimp only at h
      split at h <;> cases h
    · cases h

theorem fractionAndExponent?_eq_none (h : fractionAndExponent? cs = some (none, none)) :
    cs = [] := by
  unfold fractionAndExponent? at h
  split at h
  · split at h
    · simp at h
    · cases h
  · exact exponent?_eq_none (by simpa using h)

theorem count?_eq_some_iff : k.count? = some n ↔ k = ⟨false, k.whole, none, none⟩ ∧
    natOfDigits k.whole = n := by
  obtain ⟨negative, whole, fraction, exponent⟩ := k
  unfold count?
  cases negative <;> cases fraction <;> cases exponent <;> simp

/-- A literal is digits alone if these are plain. -/
theorem ofChars?_whole_iff : ofChars? cs = some ⟨false, ds, none, none⟩ ↔
    Plain ds ∧ cs = ds.map Nat.digitChar := by
  constructor
  · intro h
    unfold ofChars? at h
    split at h
    next negative rest hsign =>
    split at h
    · cases h
    · cases h
    next whole behind hone hmany hdigits =>
    simp only [Option.map_eq_some_iff, Prod.exists] at h
    obtain ⟨fraction, exponent, hbehind, heq⟩ := h
    cases heq
    cases fractionAndExponent?_eq_none hbehind
    obtain ⟨hlt, rfl⟩ := digits_eq_iff.mp hdigits
    have hcs : cs = ds.map Nat.digitChar := by
      split at hsign <;> cases hsign
      rfl
    refine ⟨⟨?_, hlt, ?_⟩, hcs⟩
    · rintro rfl
      exact hone rfl
    · rintro (_ | ⟨d, rest⟩) rfl
      · rfl
      · exact (hmany d rest rfl).elim
  · rintro ⟨h, rfl⟩
    have hdigits : digits (ds.map Nat.digitChar) = (ds, []) := digits_eq_iff.mpr ⟨h.lt_ten, rfl⟩
    have hminus : ∀ cs, ds.map Nat.digitChar ≠ '-' :: cs := by
      intro cs hcs
      obtain ⟨d, rest, rfl, hd, -⟩ := List.map_eq_cons_iff.mp hcs
      have hnone : ∀ d < 10, Nat.digitChar d ≠ '-' := by decide
      exact hnone d (h.lt_ten d List.mem_cons_self) hd
    unfold ofChars?
    split
    next negative rest hsign =>
    split at hsign
    next cs hcs => exact absurd hcs (hminus cs)
    cases hsign
    rw [hdigits]
    split
    next hnil => exact absurd (congrArg Prod.fst hnil) h.ne_nil
    next hzero =>
      have hrest := h.zero_alone _ (congrArg Prod.fst hzero)
      cases hrest
    next hwhole =>
      cases hwhole
      rfl

/-- A count has one literal. -/
theorem exists_count?_iff :
    (∃ k, ofChars? cs = some k ∧ k.count? = some n) ↔ cs = Nat.toDigits 10 n := by
  rw [eq_toDigits_iff]
  constructor
  · rintro ⟨k, hk, hcount⟩
    obtain ⟨hwhole, hvalue⟩ := count?_eq_some_iff.mp hcount
    rw [hwhole] at hk
    obtain ⟨hplain, hcs⟩ := ofChars?_whole_iff.mp hk
    exact ⟨k.whole, hplain, hvalue, hcs⟩
  · rintro ⟨ds, hplain, hvalue, hcs⟩
    exact ⟨_, ofChars?_whole_iff.mpr ⟨hplain, hcs⟩, count?_eq_some_iff.mpr ⟨rfl, hvalue⟩⟩

end Number

/-! ## Counts in a text -/

open Token (Spells isBlank endsRun word? ofRun?)

variable {text : String} {n bound : Nat}

/-- The text is the literal of a count, with blanks before and behind it. -/
def WritesCount (text : String) (n : Nat) : Prop :=
  ∃ front back : String, (∀ c ∈ (front ++ back).toList, isBlank c) ∧
    text = front ++ Nat.repr n ++ back

theorem Token.ofRun?_eq_number {cs : List Char} {k : Number} (h : ofRun? cs = some (.number k)) :
    Number.ofChars? cs = some k := by
  unfold ofRun? at h
  split at h
  next hword =>
    unfold word? at hword
    split at hword
    · cases hword; cases h
    split at hword
    · cases hword; cases h
    split at hword
    · cases hword; cases h
    · cases hword
  · simpa using h

/-- The digits of a number are a run, and no word. -/
theorem Token.ofRun?_toDigits {k : Number} (h : Number.ofChars? (Nat.toDigits 10 n) = some k) :
    ofRun? (Nat.toDigits 10 n) = some (.number k) ∧ ∀ c ∈ Nat.toDigits 10 n, endsRun c = false := by
  obtain ⟨ds, hds, -, hdigits⟩ := Number.eq_toDigits_iff.mp (rfl : Nat.toDigits 10 n = _)
  rw [hdigits] at h ⊢
  have hnone : ∀ d < 10, d.digitChar ≠ 'n' ∧ d.digitChar ≠ 't' ∧ d.digitChar ≠ 'f' := by decide
  have hinside : ∀ d < 10, endsRun d.digitChar = false := by decide
  refine ⟨?_, ?_⟩
  · obtain ⟨d, rest, rfl⟩ := List.exists_cons_of_ne_nil hds.ne_nil
    obtain ⟨hn, ht, hf⟩ := hnone d (hds.lt_ten d List.mem_cons_self)
    have hword : word? ((d :: rest).map Nat.digitChar) = none := by
      simp [word?, hn, ht, hf]
    simp only [ofRun?, hword, h, Option.map_some]
  · intro c hc
    obtain ⟨d, hd, rfl⟩ := List.mem_map.mp hc
    exact hinside d (hds.lt_ten d hd)

/-- A text is read as a count below a bound if it is written for it. -/
theorem writesCount_iff : (∃ v, Value.ofText? text = some v ∧ v.count? bound = some n) ↔
    n < bound ∧ WritesCount text n := by
  constructor
  · rintro ⟨v, hv, hcount⟩
    unfold Value.count? at hcount
    split at hcount
    next k =>
      obtain ⟨hn, hlt⟩ := Option.filter_eq_some_iff.mp hcount
      obtain ⟨ts, hspells, hreads⟩ := Value.ofText?_eq_some.mp hv
      rw [Value.reads_number_iff.mp hreads] at hspells
      obtain ⟨front, run, back, htext, hblank, -, -, hrun⟩ := Token.spells_number_iff.mp hspells
      have hrun := Number.exists_count?_iff.mp ⟨k, Token.ofRun?_eq_number hrun, hn⟩
      refine ⟨of_decide_eq_true hlt, .ofList front, .ofList back, by simpa using hblank, ?_⟩
      rw [← String.toList_inj, htext, hrun]
      simp [Nat.repr]
    · cases hcount
  · rintro ⟨hlt, front, back, hblank, rfl⟩
    obtain ⟨k, hk, hcount⟩ := Number.exists_count?_iff.mpr (rfl : Nat.toDigits 10 n = _)
    obtain ⟨hrun, hinside⟩ := Token.ofRun?_toDigits hk
    refine ⟨.number k, Value.ofText?_eq_some.mpr ⟨_, ?_, Value.reads_number_iff.mpr rfl⟩, ?_⟩
    · refine Token.spells_number_iff.mpr ⟨front.toList, Nat.toDigits 10 n, back.toList, ?_, ?_,
        Nat.toDigits_ne_nil, hinside, hrun⟩
      · simp [Nat.repr]
      · simpa using hblank
    · exact Option.filter_eq_some_iff.mpr ⟨hcount, decide_eq_true hlt⟩

end Espalier.Json
