import Espalier.Json.Value

/-!
# How values are read

The reader goes over the tokens step by step, and no step looks at more than the innermost array or
object that is open. So what is read of a value does not depend on what the value stands in, and
where a value stands in an object, its tokens are read as they would be alone.

Results:
1. `readFrom?_eq_some_iff`: a value is read if some path of steps ends with it.
2. `Path.under`, `Path.split`: the frames around a value, added and taken away.
3. `reads_iff`: a value is read from one token, or item by item, or member by member.
-/

namespace Espalier.Json.Value

/-- Where a reader is: before a value or behind one. -/
inductive Place where
  | before
  | behind (v : Value)

def readFrom? (stack : List Frame) : Place → List Token → Option Value
  | .before => expect? stack
  | .behind v => resume? stack v

/-- One step of a reader. -/
inductive Step : List Frame → Place → List Token → List Frame → Place → Prop
  | null {s} : Step s .before [.null] s (.behind .null)
  | bool {s b} : Step s .before [.bool b] s (.behind (.bool b))
  | number {s n} : Step s .before [.number n] s (.behind (.number n))
  | string {s t} : Step s .before [.string t] s (.behind (.string t))
  | emptyArray {s} : Step s .before [.openArray, .closeArray] s (.behind (.array []))
  | openArray {s} : Step s .before [.openArray] (.array [] :: s) .before
  | emptyObject {s} : Step s .before [.openObject, .closeObject] s (.behind (.object []))
  | openObject {s k} : Step s .before [.openObject, .string k, .colon] (.object [] k :: s) .before
  | nextItem {s vs v} : Step (.array vs :: s) (.behind v) [.comma] (.array (v :: vs) :: s) .before
  | closeArray {s vs v} :
      Step (.array vs :: s) (.behind v) [.closeArray] s (.behind (.array (v :: vs).reverse))
  | nextMember {s ms k v l} : Step (.object ms k :: s) (.behind v) [.comma, .string l, .colon]
      (.object ((k, v) :: ms) l :: s) .before
  | closeObject {s ms k v} : Step (.object ms k :: s) (.behind v) [.closeObject] s
      (.behind (.object ((k, v) :: ms).reverse))

/-- Some steps, with the tokens that they take. -/
inductive Path : List Frame → Place → List Token → List Frame → Place → Prop
  | refl {s p} : Path s p [] s p
  | step {s p ts s' p' us s'' p''} (h : Step s p ts s' p') (hrest : Path s' p' us s'' p'') :
      Path s p (ts ++ us) s'' p''

variable {s s' s'' outer : List Frame} {p p' p'' : Place} {ts us : List Token} {v r : Value}

/-! ## Paths of the reader -/

theorem not_closeArray_of_expect? (h : expect? s ts = some r) (us : List Token) :
    ts ≠ .closeArray :: us := by
  rintro rfl
  cases h

/-- What is read behind a step is read from before it. -/
theorem Step.readFrom?_eq (h : Step s p ts s' p') (hrest : readFrom? s' p' us = some r) :
    readFrom? s p (ts ++ us) = some r := by
  cases h with
  | openArray =>
    -- The bracket opens an array with items only if it is not closed at once.
    show expect? s (.openArray :: us) = some r
    rw [expect?]
    · exact hrest
    · exact not_closeArray_of_expect? hrest
  | null | bool | number | string | emptyArray | emptyObject | openObject => exact hrest
  | nextItem | closeArray | nextMember | closeObject => exact hrest

/-- A reader that ends with a value is at its end, or it takes a step. -/
theorem exists_step (h : readFrom? s p ts = some r) :
    (s = [] ∧ p = .behind r ∧ ts = []) ∨ ∃ us us' s' p', ts = us ++ us' ∧ us ≠ [] ∧
      Step s p us s' p' ∧ readFrom? s' p' us' = some r := by
  cases p with
  | before =>
    change expect? s ts = some r at h
    refine .inr ?_
    unfold expect? at h
    split at h
    · exact ⟨[_], _, _, _, rfl, by simp, .null, h⟩
    · exact ⟨[_], _, _, _, rfl, by simp, .bool, h⟩
    · exact ⟨[_], _, _, _, rfl, by simp, .number, h⟩
    · exact ⟨[_], _, _, _, rfl, by simp, .string, h⟩
    · exact ⟨[_, _], _, _, _, rfl, by simp, .emptyArray, h⟩
    · exact ⟨[_], _, _, _, rfl, by simp, .openArray, h⟩
    · exact ⟨[_, _], _, _, _, rfl, by simp, .emptyObject, h⟩
    · exact ⟨[_, _, _], _, _, _, rfl, by simp, .openObject, h⟩
    · cases h
  | behind v =>
    change resume? s v ts = some r at h
    unfold resume? at h
    split at h
    · split at h
      next hempty =>
        cases h
        exact .inl ⟨List.isEmpty_iff.mp hempty, rfl, rfl⟩
      · cases h
    · refine .inr ?_
      split at h
      · exact ⟨[_], _, _, _, rfl, by simp, .nextItem, h⟩
      · exact ⟨[_], _, _, _, rfl, by simp, .closeArray, h⟩
      · exact ⟨[_, _, _], _, _, _, rfl, by simp, .nextMember, h⟩
      · exact ⟨[_], _, _, _, rfl, by simp, .closeObject, h⟩
      · cases h

theorem readFrom?_eq_some_iff : readFrom? s p ts = some r ↔ Path s p ts [] (.behind r) := by
  constructor
  · intro h
    induction hn : ts.length using Nat.strongRecOn generalizing s p ts with
    | ind n ih =>
    subst hn
    rcases exists_step h with ⟨rfl, rfl, rfl⟩ | ⟨us, us', s', p', rfl, hne, hstep, hrest⟩
    · exact .refl
    · refine .step hstep (ih _ ?_ hrest rfl)
      have := List.length_pos_iff.mpr hne
      simp only [List.length_append]
      omega
  · intro h
    generalize hend : ([] : List Frame) = s' at h
    generalize hp : Place.behind r = p' at h
    induction h with
    | refl =>
      subst hend hp
      rfl
    | step h _ ih => exact h.readFrom?_eq (ih hend hp)

/-! ## Frames around a value -/

theorem Path.trans (h : Path s p ts s' p') (h' : Path s' p' us s'' p'') :
    Path s p (ts ++ us) s'' p'' := by
  induction h with
  | refl => exact h'
  | step hstep _ ih =>
    rw [List.append_assoc]
    exact .step hstep (ih h')

theorem Step.under (h : Step s p ts s' p') (outer : List Frame) :
    Step (s ++ outer) p ts (s' ++ outer) p' := by
  cases h <;> constructor

theorem Path.under (h : Path s p ts s' p') (outer : List Frame) :
    Path (s ++ outer) p ts (s' ++ outer) p' := by
  induction h with
  | refl => exact .refl
  | step hstep _ ih => exact .step (hstep.under outer) ih

/-- A step looks at no frame around the value, unless it is behind that. -/
theorem Step.inside (h : Step (s ++ outer) p ts s' p') (hinside : s = [] → p = .before) :
    ∃ inner, s' = inner ++ outer ∧ Step s p ts inner p' := by
  cases s with
  | nil =>
    cases hinside rfl
    cases h with
    | openArray => exact ⟨[_], rfl, .openArray⟩
    | openObject => exact ⟨[_], rfl, .openObject⟩
    | null | bool | number | string | emptyArray | emptyObject => exact ⟨[], rfl, by constructor⟩
  | cons frame s =>
    rw [List.cons_append] at h
    cases h with
    | openArray => exact ⟨_ :: frame :: s, rfl, .openArray⟩
    | openObject => exact ⟨_ :: frame :: s, rfl, .openObject⟩
    | null | bool | number | string | emptyArray | emptyObject =>
      exact ⟨frame :: s, rfl, by constructor⟩
    | nextItem => exact ⟨_ :: s, rfl, .nextItem⟩
    | nextMember => exact ⟨_ :: s, rfl, .nextMember⟩
    | closeArray | closeObject => exact ⟨s, rfl, by constructor⟩

/-- On its way out of all frames, a path comes past the end of each of them. -/
theorem Path.split (h : Path (s ++ outer) p ts [] (.behind r)) : ∃ before after v,
    ts = before ++ after ∧ Path s p before [] (.behind v) ∧
      Path outer (.behind v) after [] (.behind r) := by
  generalize hall : s ++ outer = all at h
  generalize hend : ([] : List Frame) = s' at h
  generalize hr : Place.behind r = p' at h
  induction h generalizing s with
  | refl =>
    subst hr hend
    obtain ⟨rfl, rfl⟩ := List.append_eq_nil_iff.mp hall
    exact ⟨[], [], r, rfl, .refl, .refl⟩
  | @step _ p us inner p' us' _ _ hstep hrest ih =>
    subst hall hend hr
    by_cases hinside : s = [] → p = .before
    · obtain ⟨inner, rfl, hinner⟩ := hstep.inside hinside
      obtain ⟨before, after, v, rfl, hbefore, hafter⟩ := ih rfl rfl rfl
      exact ⟨us ++ before, after, v, (List.append_assoc ..).symm, .step hinner hbefore, hafter⟩
    · obtain ⟨rfl, hp⟩ := Classical.not_imp.mp hinside
      cases p with
      | before => exact absurd rfl hp
      | behind v => exact ⟨[], us ++ us', v, rfl, .refl, .step hstep hrest⟩

theorem Path.of_nil (h : Path [] (.behind v) ts [] (.behind r)) : ts = [] ∧ v = r := by
  generalize hp : Place.behind v = p at h
  generalize hr : Place.behind r = p' at h
  cases h with
  | refl =>
    subst hp
    cases hr
    exact ⟨rfl, rfl⟩
  | step hstep _ =>
    subst hp
    cases hstep

/-- The tokens are those of a value, and of nothing else. -/
def Reads (ts : List Token) (v : Value) : Prop := Path [] .before ts [] (.behind v)

theorem ofText?_eq_some_iff {text : String} :
    ofText? text = some v ↔ ∃ ts, Token.ofChars? text.toList = some ts ∧ Reads ts v := by
  rw [ofText?, Option.bind_eq_some_iff]
  exact exists_congr fun ts => and_congr_right fun _ => @readFrom?_eq_some_iff [] .before ts v

/-! ## Arrays -/

/-- The tokens of at least one item. -/
inductive ReadsItems : List Token → List Value → Prop
  | last {ts : List Token} {v : Value} (h : Reads ts v) : ReadsItems ts [v]
  | more {ts us : List Token} {v : Value} {vs : List Value} (h : Reads ts v)
      (hrest : ReadsItems us vs) : ReadsItems (ts ++ .comma :: us) (v :: vs)

/-- Items are read one after the other, behind those that are done. -/
theorem ReadsItems.path {vs : List Value} (h : ReadsItems ts vs) (done : List Value) :
    Path [.array done] .before (ts ++ [.closeArray]) [] (.behind (.array (done.reverse ++ vs))) := by
  induction h generalizing done with
  | @last ts v h =>
    refine (h.under _).trans ?_
    simpa using Path.step (@Step.closeArray [] _ _) .refl
  | @more ts us v vs h _ ih =>
    have hpath := (h.under [.array done]).trans (.step .nextItem (ih (v :: done)))
    simpa using hpath

/-- The way out of an array goes past items and ends with its bracket. -/
theorem readsItems_of_path {done : List Value}
    (h : Path [.array done] .before ts [] (.behind r)) : ∃ us vs,
      ts = us ++ [.closeArray] ∧ ReadsItems us vs ∧ r = .array (done.reverse ++ vs) := by
  induction hn : ts.length using Nat.strongRecOn generalizing ts done with
  | ind n ih =>
  subst hn
  -- Past the first value only the bracket can come, or a comma and a path with fewer tokens.
  obtain ⟨before, after, v, rfl, hbefore, hafter⟩ := @Path.split [] _ _ _ _ h
  cases hafter with
  | step hstep hrest =>
    cases hstep with
    | closeArray =>
      obtain ⟨rfl, hr⟩ := hrest.of_nil
      exact ⟨before, [v], rfl, .last hbefore, by simp [← hr]⟩
    | nextItem =>
      obtain ⟨us, vs, rfl, hvs, rfl⟩ := ih _ (by simp; omega) hrest rfl
      exact ⟨before ++ .comma :: us, v :: vs, by simp, .more hbefore hvs, by simp⟩

/-! ## Objects -/

/-- The tokens of at least one member. -/
inductive ReadsMembers : List Token → List (Text × Value) → Prop
  | last {k ts v} (h : Reads ts v) : ReadsMembers (.string k :: .colon :: ts) [(k, v)]
  | more {k ts v us ms} (h : Reads ts v) (hrest : ReadsMembers us ms) :
      ReadsMembers (.string k :: .colon :: ts ++ .comma :: us) ((k, v) :: ms)

/-- Members are read one after the other, behind those that are done. -/
theorem ReadsMembers.path {ms : List (Text × Value)} (h : ReadsMembers ts ms)
    (done : List (Text × Value)) : ∃ k us, ts = .string k :: .colon :: us ∧
      Path [.object done k] .before (us ++ [.closeObject]) []
        (.behind (.object (done.reverse ++ ms))) := by
  induction h generalizing done with
  | @last k us v h =>
    refine ⟨k, us, rfl, (h.under _).trans ?_⟩
    simpa using Path.step (@Step.closeObject [] _ _ _) .refl
  | @more k us v us' ms h _ ih =>
    obtain ⟨l, us'', rfl, hrest⟩ := ih ((k, v) :: done)
    refine ⟨k, us ++ .comma :: .string l :: .colon :: us'', rfl, ?_⟩
    have hpath := (h.under [.object done k]).trans (.step .nextMember hrest)
    simpa using hpath

/-- The way out of an object goes past members and ends with its brace. -/
theorem readsMembers_of_path {k : Text} {done : List (Text × Value)}
    (h : Path [.object done k] .before ts [] (.behind r)) : ∃ us ms,
      .string k :: .colon :: ts = us ++ [.closeObject] ∧ ReadsMembers us ms ∧
      r = .object (done.reverse ++ ms) := by
  induction hn : ts.length using Nat.strongRecOn generalizing ts done k with
  | ind n ih =>
  subst hn
  -- Past the first value only the brace can come, or a comma and a path with fewer tokens.
  obtain ⟨before, after, v, rfl, hbefore, hafter⟩ := @Path.split [] _ _ _ _ h
  cases hafter with
  | step hstep hrest =>
    cases hstep with
    | closeObject =>
      obtain ⟨rfl, hr⟩ := hrest.of_nil
      exact ⟨.string k :: .colon :: before, [(k, v)], rfl, .last hbefore, by simp [← hr]⟩
    | @nextMember _ _ _ _ l =>
      obtain ⟨us, ms, hus, hms, rfl⟩ := ih _ (by simp; omega) hrest rfl
      refine ⟨.string k :: .colon :: before ++ .comma :: us, (k, v) :: ms, ?_,
        .more hbefore hms, by simp⟩
      simp [← hus]

/-! ## Whole values -/

/-- A value is read in one step from one token, or it is an array or an object and is read item by
item or member by member, each as it would be alone. -/
theorem reads_iff : Reads ts r ↔
    (∃ t, ts = [t] ∧ Step [] .before [t] [] (.behind r)) ∨
    (∃ vs, r = .array vs ∧ ((ts = [.openArray, .closeArray] ∧ vs = []) ∨
      ∃ us, ReadsItems us vs ∧ ts = .openArray :: us ++ [.closeArray])) ∨
    ∃ ms, r = .object ms ∧ ((ts = [.openObject, .closeObject] ∧ ms = []) ∨
      ∃ us, ReadsMembers us ms ∧ ts = .openObject :: us ++ [.closeObject]) := by
  constructor
  · intro h
    cases h with
    | step hstep hrest =>
      cases hstep with
      | null | bool | number | string =>
        obtain ⟨rfl, rfl⟩ := hrest.of_nil
        exact .inl ⟨_, rfl, by constructor⟩
      | emptyArray =>
        obtain ⟨rfl, rfl⟩ := hrest.of_nil
        exact .inr (.inl ⟨[], rfl, .inl ⟨rfl, rfl⟩⟩)
      | openArray =>
        obtain ⟨us, vs, rfl, hvs, rfl⟩ := readsItems_of_path hrest
        exact .inr (.inl ⟨vs, rfl, .inr ⟨us, hvs, rfl⟩⟩)
      | emptyObject =>
        obtain ⟨rfl, rfl⟩ := hrest.of_nil
        exact .inr (.inr ⟨[], rfl, .inl ⟨rfl, rfl⟩⟩)
      | openObject =>
        obtain ⟨us, ms, hus, hms, rfl⟩ := readsMembers_of_path hrest
        exact .inr (.inr ⟨ms, rfl, .inr ⟨us, hms, by simpa using hus⟩⟩)
  · rintro (⟨t, rfl, hstep⟩ | ⟨vs, rfl, ⟨rfl, rfl⟩ | ⟨us, hvs, rfl⟩⟩ |
      ⟨ms, rfl, ⟨rfl, rfl⟩ | ⟨us, hms, rfl⟩⟩)
    · exact .step hstep .refl
    · exact .step .emptyArray .refl
    · simpa [Reads] using Path.step .openArray (hvs.path [])
    · exact .step .emptyObject .refl
    · obtain ⟨k, us, rfl, hpath⟩ := hms.path []
      simpa [Reads] using Path.step .openObject hpath

/-- A string has no other token. -/
theorem reads_string_iff {t : Text} : Reads ts (.string t) ↔ ts = [.string t] := by
  rw [reads_iff]
  constructor
  · rintro (⟨t', rfl, hstep⟩ | ⟨_, h, -⟩ | ⟨_, h, -⟩)
    · cases hstep
      rfl
    · cases h
    · cases h
  · rintro rfl
    exact .inl ⟨_, rfl, .string⟩

/-- A number has no other token. -/
theorem reads_number_iff {n : Number} : Reads ts (.number n) ↔ ts = [.number n] := by
  rw [reads_iff]
  constructor
  · rintro (⟨t, rfl, hstep⟩ | ⟨_, h, -⟩ | ⟨_, h, -⟩)
    · cases hstep
      rfl
    · cases h
    · cases h
  · rintro rfl
    exact .inl ⟨_, rfl, .number⟩

theorem reads_array_iff {vs : List Value} : Reads ts (.array vs) ↔
    (ts = [.openArray, .closeArray] ∧ vs = []) ∨
      ∃ us, ReadsItems us vs ∧ ts = .openArray :: us ++ [.closeArray] := by
  rw [reads_iff]
  constructor
  · rintro (⟨t, rfl, hstep⟩ | ⟨vs', h, hvs⟩ | ⟨_, h, -⟩)
    · cases hstep
    · cases h
      exact hvs
    · cases h
  · exact fun h => .inr (.inl ⟨vs, rfl, h⟩)

theorem reads_object_iff {ms : List (Text × Value)} : Reads ts (.object ms) ↔
    (ts = [.openObject, .closeObject] ∧ ms = []) ∨
      ∃ us, ReadsMembers us ms ∧ ts = .openObject :: us ++ [.closeObject] := by
  rw [reads_iff]
  constructor
  · rintro (⟨t, rfl, hstep⟩ | ⟨_, h, -⟩ | ⟨ms', h, hms⟩)
    · cases hstep
    · cases h
    · cases h
      exact hms
  · exact fun h => .inr (.inr ⟨ms, rfl, h⟩)

end Espalier.Json.Value
