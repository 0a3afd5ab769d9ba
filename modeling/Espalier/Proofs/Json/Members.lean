import Espalier.Proofs.Json.Reading
import Espalier.Proofs.Json.Spelling

/-!
# Objects as they are written

An object is written as its members between braces, with commas between them. Each member has a key
and a value, and both are texts that may be read on their own: the key with its blanks and escapes,
the value whatever it nests. There is no other way to write an object.

Results:
1. `WritesObject.ofText?_eq`: how an object of some members is read.
2. `exists_writesObject`: a text that is read as an object with texts for keys is made of members.
3. `Value.namedMembers?_entries`: what the members with some names say.
-/

namespace Espalier.Json

open Token (Spells isBlank)
open Value (Reads ReadsMembers)

/-- A member of an object as it is written, with what is read of its key and of its value. -/
structure Member where
  key : String
  value : String
  name : String
  content : Value
  key_reads : Value.ofText? key = some (.string (some name))
  value_reads : Value.ofText? value = some content

namespace Member

def text (m : Member) : String := m.key ++ ":" ++ m.value

def entry (m : Member) : Text × Value := (some m.name, m.content)

/-- Some members, with commas between them. -/
def joined (ms : List Member) : String := ",".intercalate (ms.map text)

end Member

/-- The text is an object of the given members. -/
def WritesObject (text : String) (ms : List Member) : Prop :=
  ∃ front inside back : String, (∀ c ∈ (front ++ inside ++ back).toList, isBlank c) ∧
    text = front ++ "\x7b" ++ inside ++ Member.joined ms ++ "\x7d" ++ back

variable {text : String} {ms : List Member} {cs : List Char} {ts : List Token}

/-! ## From members to an object -/

theorem Value.ofText?_eq_some {v : Value} :
    ofText? text = some v ↔ ∃ ts, Spells text.toList ts ∧ Reads ts v := by
  simp only [ofText?_eq_some_iff, Token.ofChars?_eq_some_iff]

theorem Member.spells_key (m : Member) : Spells m.key.toList [.string (some m.name)] := by
  obtain ⟨ts, hspells, hreads⟩ := Value.ofText?_eq_some.mp m.key_reads
  rwa [Value.reads_string_iff.mp hreads] at hspells

theorem Member.spells_text (m : Member) : ∃ ts, Reads ts m.content ∧
    Spells m.text.toList (.string (some m.name) :: .colon :: ts) := by
  obtain ⟨ts, hspells, hreads⟩ := Value.ofText?_eq_some.mp m.value_reads
  refine ⟨ts, hreads, ?_⟩
  have hcolon : Token.mark? ':' = some .colon := rfl
  have h := m.spells_key.append (Token.bounded_of_mark hcolon _) (.mark hcolon hspells)
  simpa [text] using h

theorem Member.spells_joined (hms : ms ≠ []) : ∃ ts, ReadsMembers ts (ms.map entry) ∧
    Spells (joined ms).toList ts := by
  induction ms with
  | nil => exact absurd rfl hms
  | cons m ms ih =>
    obtain ⟨ts, hreads, hspells⟩ := m.spells_text
    cases ms with
    | nil => exact ⟨_, .last hreads, by simpa [joined] using hspells⟩
    | cons m' ms =>
      obtain ⟨us, hmembers, hjoined⟩ := ih (List.cons_ne_nil m' ms)
      refine ⟨_, .more hreads hmembers, ?_⟩
      have hcomma : Token.mark? ',' = some .comma := rfl
      have h := hspells.append (Token.bounded_of_mark hcomma _) (.mark hcomma hjoined)
      simpa [joined] using h

/-- An object is read as its members say, in the order in which they are written. -/
theorem WritesObject.ofText?_eq (h : WritesObject text ms) :
    Value.ofText? text = some (.object (ms.map Member.entry)) := by
  obtain ⟨front, inside, back, hblank, rfl⟩ := h
  refine Value.ofText?_eq_some.mpr ?_
  by_cases hms : ms = []
  · subst hms
    exact ⟨_, Token.braces.enclose hblank .nil, Value.reads_object_iff.mpr (.inl ⟨rfl, rfl⟩)⟩
  · obtain ⟨ts, hreads, hspells⟩ := Member.spells_joined hms
    exact ⟨_, Token.braces.enclose hblank hspells,
      Value.reads_object_iff.mpr (.inr ⟨ts, hreads, rfl⟩)⟩

/-! ## From an object to its members -/

/-- A member is made of the characters in front of a colon and of those behind it. -/
theorem exists_member {k : Text} {v : Value} (hkey : k.isSome)
    (hspells : Spells cs (.string k :: .colon :: ts)) (hreads : Reads ts v) :
    ∃ m : Member, m.entry = (k, v) ∧ m.text.toList = cs := by
  obtain ⟨name, rfl⟩ := Option.isSome_iff_exists.mp hkey
  obtain ⟨before, after, rfl, hbefore, hafter⟩ :=
    @Spells.cut _ [.string (some name)] _ _ _ hspells (show Token.mark? ':' = some .colon from rfl)
  have hstring : Reads [.string (some name)] (.string (some name)) :=
    .step .string .refl
  exact ⟨{ key := .ofList before
           value := .ofList after
           name := name
           content := v
           key_reads := Value.ofText?_eq_some.mpr ⟨_, by rwa [String.toList_ofList], hstring⟩
           value_reads := Value.ofText?_eq_some.mpr ⟨ts, by rwa [String.toList_ofList], hreads⟩ },
    rfl, by simp [Member.text]⟩

/-- The members of an object are those between its commas. -/
theorem exists_joined {entries : List (Text × Value)} (hreads : ReadsMembers ts entries)
    (hspells : Spells cs ts) (hkeys : ∀ e ∈ entries, e.1.isSome) :
    ∃ ms : List Member, ms ≠ [] ∧ ms.map Member.entry = entries ∧
      (Member.joined ms).toList = cs := by
  induction hreads generalizing cs with
  | last h =>
    obtain ⟨m, hm, htext⟩ := exists_member (hkeys _ List.mem_cons_self) hspells h
    exact ⟨[m], by simp, by simp [hm], by simp [Member.joined, htext]⟩
  | @more k ts v us entries h _ ih =>
    obtain ⟨hkey, hkeys⟩ := List.forall_mem_cons.mp hkeys
    obtain ⟨before, after, rfl, hbefore, hafter⟩ :=
      hspells.cut (show Token.mark? ',' = some .comma from rfl)
    obtain ⟨m, hm, htext⟩ := exists_member hkey hbefore h
    obtain ⟨ms, hne, hms, hjoined⟩ := ih hafter hkeys
    obtain ⟨m', ms, rfl⟩ := List.exists_cons_of_ne_nil hne
    refine ⟨m :: m' :: ms, by simp, by simp [hm, ← hms], ?_⟩
    simp [Member.joined, htext, ← hjoined]

/-- Each text that is read as an object with texts for keys is an object of members. -/
theorem exists_writesObject {entries : List (Text × Value)}
    (h : Value.ofText? text = some (.object entries)) (hkeys : ∀ e ∈ entries, e.1.isSome) :
    ∃ ms, WritesObject text ms ∧ ms.map Member.entry = entries := by
  obtain ⟨ts, hspells, hreads⟩ := Value.ofText?_eq_some.mp h
  rcases Value.reads_object_iff.mp hreads with ⟨rfl, rfl⟩ | ⟨us, hmembers, rfl⟩
  · obtain ⟨front, inside, body, back, hblank, rfl, -, hempty⟩ :=
      @Token.Brackets.enclosed [] _ _ _ _ _ Token.braces hspells
    cases hempty rfl
    exact ⟨[], ⟨front, inside, back, hblank, rfl⟩, rfl⟩
  · obtain ⟨front, inside, body, back, hblank, rfl, hbody, -⟩ := Token.braces.enclosed hspells
    obtain ⟨ms, -, hms, hjoined⟩ := exists_joined hmembers hbody hkeys
    exact ⟨ms, ⟨front, inside, back, hblank, by rw [String.toList_inj.mp hjoined]⟩, hms⟩

/-! ## Fields by name -/

namespace Value

theorem lookup_eq_some_iff_mem {fields : Fields} (h : (fields.map (·.1)).Nodup) {name : String}
    {v : Value} : fields.lookup name = some v ↔ (name, v) ∈ fields := by
  induction fields with
  | nil => simp
  | cons field fields ih =>
    obtain ⟨name', v'⟩ := field
    obtain ⟨hnew, hrest⟩ := List.nodup_cons.mp h
    rw [List.lookup_cons, List.mem_cons]
    by_cases hname : name = name'
    · subst hname
      have hnone : (name, v) ∉ fields := fun hmem => hnew (List.mem_map.mpr ⟨_, hmem, rfl⟩)
      simp [hnone, eq_comm]
    · rw [beq_eq_false_iff_ne.mpr hname]
      simp [hname, ih hrest]

/-- What the members with one of the names say. -/
def named (names : List String) (ms : List Member) : Fields :=
  (ms.map fun m => (m.name, m.content)).filter fun e => names.contains e.1

theorem namedMembers?_entries (names : List String) (ms : List Member) :
    namedMembers? names (ms.map Member.entry) =
      if ((named names ms).map (·.1)).Nodup then some (named names ms) else none := by
  have htexts : ∀ text?, (∀ m : Member, text? m.entry = some (m.name, m.content)) →
      (ms.map Member.entry).mapM text? = some (ms.map fun m => (m.name, m.content)) := by
    intro text? hentry
    induction ms with
    | nil => rfl
    | cons m ms ih => simp [List.mapM_cons, ih, hentry]
  rw [namedMembers?, htexts _ fun _ => rfl]
  rfl

end Value

end Espalier.Json
