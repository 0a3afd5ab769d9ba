import Espalier.Json.Token
import Mathlib.Data.List.TakeWhile

/-!
# How tokens are spelled

A text is cut into blanks, marks, strings and runs, and how it is cut does not depend on what stands
further behind. Only a run has to be ended by what follows it, so a mark ends whatever stands before
it: a text with marks for tokens may be cut at each of them, and both sides may be read alone.

Results:
1. `ofChars?_eq_some_iff`: a text has some tokens if these spell it.
2. `Spells.append`: texts put together, one of them ended by a mark.
3. `Spells.cut`: a text cut at a mark.
4. `Brackets.enclose`, `Brackets.enclosed`: a text between the marks of an array or of an object.
-/

namespace Espalier.Json.Token

/-- The characters that end a run. -/
def endsRun (c : Char) : Bool := isBlank c || c = '"' || (mark? c).isSome

/-- A run may end before the text. -/
def Bounded (cs : List Char) : Prop := ∀ c ∈ cs.head?, endsRun c

/-- The text is cut into blanks and into the spellings of the tokens. -/
inductive Spells : List Char → List Token → Prop
  | nil : Spells [] []
  | blank {c cs ts} (hc : isBlank c) (h : Spells cs ts) : Spells (c :: cs) ts
  | mark {c t cs ts} (hc : mark? c = some t) (h : Spells cs ts) : Spells (c :: cs) (t :: ts)
  /-- A string up to its closing quote. -/
  | string {inside text cs ts}
      (hinside : ∀ rest, stringThen? [] (inside ++ rest) =
        cons? (some (.string text)) (ofChars? rest))
      (h : Spells cs ts) : Spells ('"' :: inside ++ cs) (.string text :: ts)
  | run {run t cs ts} (hrun : run ≠ []) (hinside : ∀ c ∈ run, endsRun c = false)
      (ht : ofRun? run = some t) (hcs : Bounded cs) (h : Spells cs ts) :
      Spells (run ++ cs) (t :: ts)

/-! ## One token -/

theorem cons?_eq_some_iff {t : Option Token} {ts : Option (List Token)} {us : List Token} :
    cons? t ts = some us ↔ ∃ u us', t = some u ∧ ts = some us' ∧ us = u :: us' := by
  cases t <;> cases ts <;> simp [cons?, eq_comm]

theorem mark_not_blank {c : Char} {t : Token} (h : mark? c = some t) :
    isBlank c = false ∧ c ≠ '"' := by
  unfold mark? at h
  split at h <;> first | exact ⟨rfl, by decide⟩ | cases h

theorem mark?_injective {c c' : Char} {t : Token} (h : mark? c = some t) (h' : mark? c' = some t) :
    c = c' := by
  unfold mark? at h h'
  split at h <;> cases h <;> split at h' <;> first | rfl | cases h'

theorem endsRun_of_mark {c : Char} {t : Token} (h : mark? c = some t) : endsRun c := by
  simp [endsRun, h]

theorem bounded_of_mark {c : Char} {t : Token} (h : mark? c = some t) (cs : List Char) :
    Bounded (c :: cs) := by
  rintro _ ⟨⟩
  exact endsRun_of_mark h

theorem ofChars?_blank {c : Char} (h : isBlank c) (cs : List Char) :
    ofChars? (c :: cs) = ofChars? cs := by
  rw [ofChars?, if_pos h]

theorem ofChars?_mark {c : Char} {t : Token} (h : mark? c = some t) (cs : List Char) :
    ofChars? (c :: cs) = cons? (some t) (ofChars? cs) := by
  obtain ⟨hblank, hquote⟩ := mark_not_blank h
  rw [ofChars?, if_neg (by simp [hblank]), if_neg hquote, h]

theorem ofChars?_quote (cs : List Char) : ofChars? ('"' :: cs) = stringThen? [] cs := by
  rw [ofChars?, if_neg (by decide), if_pos rfl]

theorem endsRun_eq_false_iff {c : Char} :
    endsRun c = false ↔ isBlank c = false ∧ c ≠ '"' ∧ mark? c = none := by
  simp [endsRun, and_assoc]

/-- A run is read up to where it ends. -/
theorem runThen?_eq (run : List Char) {before cs : List Char}
    (hinside : ∀ c ∈ run, endsRun c = false) (hcs : Bounded cs) :
    runThen? before (run ++ cs) = cons? (ofRun? (before.reverse ++ run)) (ofChars? cs) := by
  induction run generalizing before with
  | nil =>
    rw [List.nil_append, List.append_nil]
    cases cs with
    | nil => rw [runThen?, ofChars?]
    | cons c cs =>
      have hends : endsRun c := hcs c rfl
      by_cases hblank : isBlank c
      · rw [runThen?, if_pos hblank, ofChars?_blank hblank]
      by_cases hquote : c = '"'
      · subst hquote
        rw [runThen?, if_neg hblank, if_pos rfl, ofChars?_quote]
      · obtain ⟨t, ht⟩ : ∃ t, mark? c = some t := by
          simpa [endsRun, hblank, hquote, Option.isSome_iff_exists] using hends
        rw [runThen?, if_neg hblank, if_neg hquote, ht, ofChars?_mark ht]
  | cons c run ih =>
    obtain ⟨hc, hrun⟩ := List.forall_mem_cons.mp hinside
    obtain ⟨hblank, hquote, hmark⟩ := endsRun_eq_false_iff.mp hc
    rw [List.cons_append, runThen?, if_neg (by simp [hblank]), if_neg hquote, hmark]
    simp [ih hrun]

theorem ofChars?_run {run cs : List Char} (hrun : run ≠ [])
    (hinside : ∀ c ∈ run, endsRun c = false) (hcs : Bounded cs) :
    ofChars? (run ++ cs) = cons? (ofRun? run) (ofChars? cs) := by
  cases run with
  | nil => exact absurd rfl hrun
  | cons c run =>
    obtain ⟨hc, hinside⟩ := List.forall_mem_cons.mp hinside
    obtain ⟨hblank, hquote, hmark⟩ := endsRun_eq_false_iff.mp hc
    rw [List.cons_append, ofChars?, if_neg (by simp [hblank]), if_neg hquote, hmark]
    exact runThen?_eq run hinside hcs

/-! ## Strings -/

section

variable {pieces : List Piece}

theorem stringThen?_quote (cs : List Char) : stringThen? pieces ('"' :: cs) =
    cons? (some (.string (Piece.text pieces))) (ofChars? cs) := by
  rw [stringThen?]

theorem stringThen?_unit {a b c d : Char} {p : Piece} (h : unit? a b c d = some p)
    (cs : List Char) : stringThen? pieces ('\\' :: 'u' :: a :: b :: c :: d :: cs) =
      stringThen? (p :: pieces) cs := by
  rw [stringThen?, h]

theorem stringThen?_escape {e c : Char} (h : escape? e = some c) (cs : List Char) :
    stringThen? pieces ('\\' :: e :: cs) = stringThen? (.char c :: pieces) cs := by
  rw [stringThen?, h]
  rintro _ _ _ _ _ rfl
  cases h

theorem stringThen?_char {c : Char} (hquote : c ≠ '"') (h : ¬(c < ' ' ∨ c = '\\'))
    (cs : List Char) : stringThen? pieces (c :: cs) = stringThen? (.char c :: pieces) cs := by
  rw [stringThen?, if_neg h]
  · exact hquote
  · rintro _ _ _ _ _ rfl
    exact fun _ => h (.inr rfl)
  · rintro _ _ rfl
    exact fun _ => h (.inr rfl)

/-- Behind the pieces that it has so far, a string ends somewhere in the text, and it would end there
whatever followed it. -/
def EndsString (pieces : List Piece) (cs : List Char) (ts : List Token) : Prop :=
  ∃ inside text rest us, cs = inside ++ rest ∧ ts = .string text :: us ∧ ofChars? rest = some us ∧
    ∀ rest, stringThen? pieces (inside ++ rest) = cons? (some (.string text)) (ofChars? rest)

/-- What is read of a string before its last pieces does not end it. -/
theorem EndsString.behind {p : Piece} {cs : List Char} {ts : List Token} (skipped : List Char)
    (h : EndsString (p :: pieces) cs ts)
    (hskipped : ∀ rest, stringThen? pieces (skipped ++ rest) = stringThen? (p :: pieces) rest) :
    EndsString pieces (skipped ++ cs) ts := by
  obtain ⟨inside, text, rest, us, rfl, hts, hrest, hinside⟩ := h
  refine ⟨skipped ++ inside, text, rest, us, (List.append_assoc ..).symm, hts, hrest, ?_⟩
  intro rest
  rw [List.append_assoc, hskipped, hinside]

theorem endsString {pieces : List Piece} {cs : List Char} {ts : List Token}
    (h : stringThen? pieces cs = some ts) : EndsString pieces cs ts := by
  unfold stringThen? at h
  split at h
  · cases h
  next rest =>
    obtain ⟨_, us, ht, hus, rfl⟩ := cons?_eq_some_iff.mp h
    cases ht
    exact ⟨['"'], _, rest, us, rfl, rfl, hus, stringThen?_quote⟩
  next a b c d rest =>
    split at h
    next hp => exact (endsString h).behind ['\\', 'u', a, b, c, d] (stringThen?_unit hp)
    · cases h
  next e rest _ =>
    split at h
    next hc => exact (endsString h).behind ['\\', e] (stringThen?_escape hc)
    · cases h
  next c rest hquote _ _ =>
    split at h
    · cases h
    next hplain => exact (endsString h).behind [c] (stringThen?_char hquote hplain)
termination_by cs.length

end

/-! ## All tokens -/

theorem Spells.ofChars?_eq {cs : List Char} {ts : List Token} (h : Spells cs ts) :
    ofChars? cs = some ts := by
  induction h with
  | nil => rw [ofChars?]
  | blank hc _ ih => rw [ofChars?_blank hc, ih]
  | mark hc _ ih => rw [ofChars?_mark hc, ih, cons?]
  | string hinside _ ih => rw [List.cons_append, ofChars?_quote, hinside, ih, cons?]
  | run hrun hinside ht hcs _ ih => rw [ofChars?_run hrun hinside hcs, ht, ih, cons?]

/-- A run that is read ends somewhere. -/
theorem exists_run {before cs : List Char} {ts : List Token}
    (h : runThen? before cs = some ts) : ∃ run t rest us, cs = run ++ rest ∧ ts = t :: us ∧
      (∀ c ∈ run, endsRun c = false) ∧ ofRun? (before.reverse ++ run) = some t ∧ Bounded rest ∧
      ofChars? rest = some us := by
  have hsplit := List.takeWhile_append_dropWhile (p := fun c => !endsRun c) (l := cs)
  have hinside : ∀ c ∈ cs.takeWhile fun c => !endsRun c, endsRun c = false := fun c hc => by
    simpa using List.mem_takeWhile_imp hc
  have hrest : Bounded (cs.dropWhile fun c => !endsRun c) := fun c hc => by
    have := List.head?_dropWhile_not (fun c => !endsRun c) cs
    rw [Option.mem_def.mp hc] at this
    simpa using this
  rw [← hsplit, runThen?_eq _ hinside hrest] at h
  obtain ⟨t, us, ht, hus, rfl⟩ := cons?_eq_some_iff.mp h
  exact ⟨_, t, _, us, hsplit.symm, rfl, hinside, ht, hrest, hus⟩

theorem ofChars?_eq_some_iff {cs : List Char} {ts : List Token} :
    ofChars? cs = some ts ↔ Spells cs ts := by
  refine ⟨fun h => ?_, Spells.ofChars?_eq⟩
  induction hn : cs.length using Nat.strongRecOn generalizing cs ts with
  | ind n ih =>
  subst hn
  cases cs with
  | nil =>
    rw [ofChars?] at h
    cases h
    exact .nil
  | cons c cs =>
    rw [ofChars?] at h
    split at h
    next hblank => exact .blank hblank (ih _ (Nat.lt_succ_self _) h rfl)
    split at h
    next hquote =>
      subst hquote
      obtain ⟨inside, text, rest, us, rfl, rfl, hrest, hinside⟩ := endsString h
      refine .string hinside (ih _ ?_ hrest rfl)
      simp only [List.length_cons, List.length_append]
      omega
    split at h
    next t ht =>
      obtain ⟨_, us, hu, hus, rfl⟩ := cons?_eq_some_iff.mp h
      cases hu
      exact .mark ht (ih _ (Nat.lt_succ_self _) hus rfl)
    next hblank hquote _ hmark =>
      obtain ⟨run, t, rest, us, rfl, rfl, hinside, ht, hrest, hus⟩ := exists_run h
      have hc : endsRun c = false := endsRun_eq_false_iff.mpr ⟨by simpa using hblank, hquote, hmark⟩
      refine Spells.run (List.cons_ne_nil c run) (List.forall_mem_cons.mpr ⟨hc, hinside⟩) ht hrest
        (ih _ ?_ hus rfl)
      simp only [List.length_cons, List.length_append]
      omega

/-! ## Putting together and cutting -/

variable {cs ds : List Char} {ts us : List Token}

theorem Bounded.append (hcs : Bounded cs) (hds : Bounded ds) : Bounded (cs ++ ds) := by
  cases cs with
  | nil => exact hds
  | cons c cs => exact hcs

/-- What is put behind a text ends it. -/
theorem Spells.append (h : Spells cs ts) (hbounded : Bounded ds) (h' : Spells ds us) :
    Spells (cs ++ ds) (ts ++ us) := by
  induction h with
  | nil => exact h'
  | blank hc _ ih => exact .blank hc ih
  | mark hc _ ih => exact .mark hc ih
  | string hinside _ ih =>
    rw [List.append_assoc]
    exact .string hinside ih
  | run hrun hinside ht hcs _ ih =>
    rw [List.append_assoc]
    exact .run hrun hinside ht (hcs.append hbounded) ih

theorem ofRun?_not_mark {run : List Char} {t : Token} (h : ofRun? run = some t) (c : Char) :
    mark? c ≠ some t := by
  have hrun : (∃ b, t = .bool b) ∨ t = .null ∨ ∃ n, t = .number n := by
    unfold ofRun? word? at h
    split at h
    next hword =>
      split at hword
      · exact .inr (.inl (by simp_all))
      split at hword
      · exact .inl ⟨true, by simp_all⟩
      split at hword
      · exact .inl ⟨false, by simp_all⟩
      · cases hword
    · obtain ⟨n, -, rfl⟩ := Option.map_eq_some_iff.mp h
      exact .inr (.inr ⟨n, rfl⟩)
  intro hmark
  unfold mark? at hmark
  split at hmark <;> cases hmark <;> simp at hrun

/-- A text is cut where one of its tokens is a mark. -/
theorem Spells.cut {c : Char} {t : Token} (h : Spells cs (ts ++ t :: us)) (ht : mark? c = some t) :
    ∃ before after, cs = before ++ c :: after ∧ Spells before ts ∧ Spells after us := by
  generalize hall : ts ++ t :: us = all at h
  induction h generalizing ts with
  | nil => simp at hall
  | blank hc _ ih =>
    obtain ⟨before, after, rfl, hbefore, hafter⟩ := ih hall
    exact ⟨_ :: before, after, rfl, .blank hc hbefore, hafter⟩
  | mark hc h ih =>
    cases ts with
    | nil =>
      cases hall
      cases mark?_injective hc ht
      exact ⟨[], _, rfl, .nil, h⟩
    | cons t' ts =>
      cases hall
      obtain ⟨before, after, rfl, hbefore, hafter⟩ := ih rfl
      exact ⟨_ :: before, after, rfl, .mark hc hbefore, hafter⟩
  | string hinside _ ih =>
    cases ts with
    | nil =>
      -- A string is no mark.
      cases hall
      unfold mark? at ht
      split at ht <;> cases ht
    | cons t' ts =>
      cases hall
      obtain ⟨before, after, rfl, hbefore, hafter⟩ := ih rfl
      exact ⟨_, after, (List.append_assoc ..).symm, .string hinside hbefore, hafter⟩
  | run hrun hinside hread hcs _ ih =>
    cases ts with
    | nil =>
      cases hall
      exact absurd ht (ofRun?_not_mark hread c)
    | cons t' ts =>
      cases hall
      obtain ⟨before, after, rfl, hbefore, hafter⟩ := ih rfl
      have hbounded : Bounded before := by
        cases before with
        | nil => nofun
        | cons c before => exact hcs
      exact ⟨_, after, (List.append_assoc ..).symm, .run hrun hinside hread hbounded hbefore,
        hafter⟩

/-- Blanks in front add nothing. -/
theorem Spells.behind_blanks (h : Spells ds us) (hcs : ∀ c ∈ cs, isBlank c) :
    Spells (cs ++ ds) us := by
  induction cs with
  | nil => exact h
  | cons c cs ih =>
    obtain ⟨hc, hcs⟩ := List.forall_mem_cons.mp hcs
    exact .blank hc (ih hcs)

theorem spells_nil_iff : Spells cs [] ↔ ∀ c ∈ cs, isBlank c := by
  constructor
  · intro h
    generalize hts : ([] : List Token) = ts at h
    induction h with
    | nil => nofun
    | blank hc _ ih => exact List.forall_mem_cons.mpr ⟨hc, ih hts⟩
    | mark | string | run => cases hts
  · intro h
    simpa using Spells.nil.behind_blanks h

/-- A number is a run with blanks before and behind it. -/
theorem spells_number_iff {n : Number} : Spells cs [.number n] ↔ ∃ front run back,
    cs = front ++ run ++ back ∧ (∀ c ∈ front ++ back, isBlank c) ∧ run ≠ [] ∧
      (∀ c ∈ run, endsRun c = false) ∧ ofRun? run = some (.number n) := by
  constructor
  · intro h
    generalize hts : [Token.number n] = ts at h
    induction h with
    | nil => cases hts
    | @blank c _ _ hc _ ih =>
      obtain ⟨front, run, back, rfl, hblank, hrun⟩ := ih hts
      exact ⟨c :: front, run, back, rfl, List.forall_mem_cons.mpr ⟨hc, hblank⟩, hrun⟩
    | mark hc _ _ =>
      cases hts
      unfold mark? at hc
      split at hc <;> cases hc
    | string => cases hts
    | @run run _ back _ hrun hinside ht _ h _ =>
      cases hts
      exact ⟨[], run, back, rfl, spells_nil_iff.mp h, hrun, hinside, ht⟩
  · rintro ⟨front, run, back, rfl, hblank, hrun, hinside, ht⟩
    obtain ⟨hfront, hback⟩ := List.forall_mem_append.mp hblank
    have hbounded : Bounded back := fun c hc => by
      simp [endsRun, hback c (List.mem_of_head? hc)]
    rw [List.append_assoc]
    exact (Spells.run hrun hinside ht hbounded (spells_nil_iff.mpr hback)).behind_blanks hfront

/-! ## Between brackets -/

/-- The two texts are those of an opening and a closing mark. -/
structure Brackets (opening closing : String) (t t' : Token) : Prop where
  first : ∃ c, opening.toList = [c] ∧ mark? c = some t
  last : ∃ c, closing.toList = [c] ∧ mark? c = some t'

theorem braces : Brackets "\x7b" "\x7d" .openObject .closeObject :=
  ⟨⟨'\x7b', rfl, rfl⟩, ⟨'\x7d', rfl, rfl⟩⟩

theorem squareBrackets : Brackets "[" "]" .openArray .closeArray :=
  ⟨⟨'[', rfl, rfl⟩, ⟨']', rfl, rfl⟩⟩

namespace Brackets

variable {opening closing text : String} {t t' : Token}

/-- Two marks around a text, with blanks before and behind them. -/
theorem enclose {front inside body back : String} (h : Brackets opening closing t t')
    (hblank : ∀ c ∈ (front ++ inside ++ back).toList, isBlank c) (hbody : Spells body.toList ts) :
    Spells (front ++ opening ++ inside ++ body ++ closing ++ back).toList (t :: ts ++ [t']) := by
  obtain ⟨⟨o, ho, ht⟩, ⟨c, hc, ht'⟩⟩ := h
  simp only [String.toList_append, List.forall_mem_append] at hblank
  obtain ⟨⟨hfront, hinside⟩, hback⟩ := hblank
  have hend : Spells (c :: back.toList) [t'] := .mark ht' (spells_nil_iff.mpr hback)
  have hrest := (hbody.append (bounded_of_mark ht' _) hend).behind_blanks hinside
  simpa [ho, hc] using (Spells.mark ht hrest).behind_blanks hfront

/-- A text whose first token and whose last one are marks. If there is nothing between them but
blanks, these stand in front of no text. -/
theorem enclosed (h : Brackets opening closing t t') (hspells : Spells text.toList (t :: ts ++ [t'])) :
    ∃ front inside body back : String, (∀ c ∈ (front ++ inside ++ back).toList, isBlank c) ∧
      text = front ++ opening ++ inside ++ body ++ closing ++ back ∧ Spells body.toList ts ∧
      (ts = [] → body = "") := by
  obtain ⟨⟨o, ho, ht⟩, ⟨c, hc, ht'⟩⟩ := h
  obtain ⟨front, rest, htext, hfront, hrest⟩ := @Spells.cut _ [] _ _ _ hspells ht
  obtain ⟨body, back, rfl, hbody, hback⟩ := hrest.cut ht'
  have hfront := spells_nil_iff.mp hfront
  have hback := spells_nil_iff.mp hback
  by_cases hts : ts = []
  · subst hts
    have hbody := spells_nil_iff.mp hbody
    refine ⟨.ofList front, .ofList body, "", .ofList back, ?_, ?_, .nil, fun _ => rfl⟩
    · simpa [or_imp, forall_and] using ⟨hfront, hbody, hback⟩
    · rw [← String.toList_inj, htext]
      simp [ho, hc]
  · refine ⟨.ofList front, "", .ofList body, .ofList back, ?_, ?_, by simpa using hbody,
      fun hnil => absurd hnil hts⟩
    · simpa [or_imp, forall_and] using ⟨hfront, hback⟩
    · rw [← String.toList_inj, htext]
      simp [ho, hc]

end Brackets

end Espalier.Json.Token
