import Espalier.Proofs.Json.Items
import Espalier.Proofs.Json.Literal
import Espalier.Proofs.Random.Apart
import Espalier.Random.Bank

/-!
# Streams that are saved and loaded

A stream is read off the texts of its record and off no other text. Such a text is an object with
one member of the name `s`, whatever its other members are, or an array of one item; the member or
the item is an array of the four words, each written as a count. What a stream is saved as is one of
these texts, so all of the stream comes back, be it that of a seed or not.

Results:
1. `ofText?_eq_some_iff`: the texts that are read as a stream.
2. `ofText?_toText`: a saved stream is read as itself.
3. `saved_loaded`: these, and what a bank answers.
-/

namespace Espalier.Stream

open Json (Item Member Value WritesArray WritesCount WritesObject writesCount_iff)

variable {s : Stream} {text : String}

/-- The text is an array of the words of the stream, each written as a count. -/
def WritesWords (text : String) (s : Stream) : Prop :=
  ∃ is, WritesArray text is ∧ List.Forall₂ (fun i w => WritesCount i.text w.toNat) is s.words

/-- The text is that of a record of the stream. -/
inductive Records (text : String) (s : Stream) : Prop
  /-- The other members may hold anything. -/
  | named {before after : List Member} {m : Member}
      (hms : WritesObject text (before ++ m :: after)) (hname : m.name = "s")
      (hothers : ∀ m' ∈ before ++ after, m'.name ≠ "s") (hwords : WritesWords m.value s)
  | bare {i : Item} (hi : WritesArray text [i]) (hwords : WritesWords i.text s)

/-! ## Reading -/

theorem word64?_eq_some_iff {i : Item} {w : UInt64} :
    i.content.word64? = some w ↔ WritesCount i.text w.toNat := by
  have hcount : i.content.word64? = some w ↔ i.content.count? UInt64.size = some w.toNat := by
    rw [Value.word64?, Option.map_eq_some_iff]
    constructor
    · rintro ⟨n, hn, rfl⟩
      have hlt : n < UInt64.size := (writesCount_iff.mp ⟨_, i.reads, hn⟩).1
      rw [hn, Nat.toUInt64_eq, UInt64.toNat_ofNat_of_lt' hlt]
    · exact fun h => ⟨_, h, by simp⟩
  rw [hcount]
  constructor
  · exact fun h => (writesCount_iff.mp ⟨_, i.reads, h⟩).2
  · intro h
    obtain ⟨v, hv, hn⟩ := writesCount_iff.mpr ⟨w.toNat_lt, h⟩
    cases i.reads.symm.trans hv
    exact hn

theorem words?_eq_some_iff {v : Value} (hv : Value.ofText? text = some v) :
    v.list? Value.word64? = some s.words ↔ WritesWords text s := by
  simp only [Json.list?_eq_some_iff hv, word64?_eq_some_iff, WritesWords]

theorem ofValue?_eq_some_iff {v : Value} : ofValue? v = some s ↔ ∃ fields w,
    v.fields? ["s"] = some fields ∧ fields.lookup "s" = some w ∧
      w.list? Value.word64? = some s.words := by
  unfold ofValue?
  simp only [bind, Option.bind_eq_some_iff, Value.Fields.get?]
  constructor
  · rintro ⟨fields, hfields, ws, ⟨w, hw, hws⟩, h⟩
    split at h
    · cases h
      exact ⟨fields, w, hfields, hw, hws⟩
    · cases h
  · rintro ⟨fields, w, hfields, hw, hwords⟩
    exact ⟨fields, hfields, s.words, ⟨w, hw, hwords⟩, rfl⟩

/-- A stream is read off its records. -/
theorem ofText?_eq_some_iff : ofText? text = some s ↔ Records text s := by
  rw [ofText?, Option.bind_eq_some_iff]
  constructor
  · rintro ⟨v, hv, hs⟩
    obtain ⟨fields, w, hfields, hw, hwords⟩ := ofValue?_eq_some_iff.mp hs
    rcases Value.field_iff.mp ⟨v, fields, hv, hfields, hw⟩ with
      ⟨before, m, after, hms, hname, rfl, hothers⟩ | ⟨i, hi, rfl⟩
    · exact .named hms hname hothers ((words?_eq_some_iff m.value_reads).mp hwords)
    · exact .bare hi ((words?_eq_some_iff i.reads).mp hwords)
  · intro h
    suffices hfield : ∃ w, (∃ v fields, Value.ofText? text = some v ∧
        v.fields? ["s"] = some fields ∧ fields.lookup "s" = some w) ∧
        w.list? Value.word64? = some s.words by
      obtain ⟨w, ⟨v, fields, hv, hfields, hw⟩, hwords⟩ := hfield
      exact ⟨v, hv, ofValue?_eq_some_iff.mpr ⟨fields, w, hfields, hw, hwords⟩⟩
    cases h with
    | named hms hname hothers hwords =>
      exact ⟨_, Value.field_iff.mpr (.inl ⟨_, _, _, hms, hname, rfl, hothers⟩),
        (words?_eq_some_iff (Member.value_reads _)).mpr hwords⟩
    | bare hi hwords =>
      exact ⟨_, Value.field_iff.mpr (.inr ⟨_, hi, rfl⟩),
        (words?_eq_some_iff (Item.reads _)).mpr hwords⟩

/-- The largest word is read to its last digit, as bare as it may stand. -/
example : ofText? "[[0,0,0,18446744073709551615]]" = some ⟨0, 0, 0, 0xffffffffffffffff⟩ := by
  decide +kernel

example : ofText? "[[0,0,0,18446744073709551616]]" = none := by decide +kernel

/-! ## Writing -/

theorem exists_items (ws : List UInt64) : ∃ is : List Item,
    is.map Item.text = ws.map fun w => Nat.repr w.toNat := by
  induction ws with
  | nil => exact ⟨[], rfl⟩
  | cons w ws ih =>
    obtain ⟨is, his⟩ := ih
    obtain ⟨v, hv, -⟩ := writesCount_iff.mpr
      ⟨w.toNat_lt, "", "", by simp, (by simp : Nat.repr w.toNat = "" ++ Nat.repr w.toNat ++ "")⟩
    exact ⟨⟨_, v, hv⟩ :: is, by simp [his]⟩

theorem writesWords (s : Stream) : WritesWords
    ("[" ++ ",".intercalate (s.words.map fun w => Nat.repr w.toNat) ++ "]") s := by
  obtain ⟨is, his⟩ := exists_items s.words
  refine ⟨is, ⟨"", "", "", by simp, by simp [Item.joined, his]⟩, ?_⟩
  have hsame : List.Forall₂ (fun i w => i.text = Nat.repr w.toNat) is s.words := by
    have h := List.forall₂_eq_eq_eq ▸ his
    simpa only [List.forall₂_map_left_iff, List.forall₂_map_right_iff] using h
  exact hsame.imp fun i w h => ⟨"", "", by simp, by simp [h]⟩

/-- What a stream is saved as is a record of it. -/
theorem toText_records (s : Stream) : Records s.toText s := by
  obtain ⟨is, his, -⟩ := writesWords s
  let m : Member :=
    { key := "\"s\""
      value := "[" ++ ",".intercalate (s.words.map fun w => Nat.repr w.toNat) ++ "]"
      name := "s"
      content := _
      key_reads := rfl
      value_reads := his.ofText?_eq }
  have hms : WritesObject s.toText ([] ++ m :: []) := by
    refine ⟨"", "", "", by simp, ?_⟩
    rw [← String.toList_inj]
    simp [toText, Member.joined, Member.text, m, words]
  exact .named hms rfl (by simp) (writesWords s)

/-- A saved stream is read as itself. -/
theorem ofText?_toText (s : Stream) : ofText? s.toText = some s :=
  ofText?_eq_some_iff.mpr (toText_records s)

/-! ## Requests -/

variable {bank : Bank}

/-- An answer that adds no stream changes only the one that is asked. -/
theorem serve?_eq {request : Request} {answer : Answer} (i : Fin bank.size)
    (h : bank[i].serve bank.size request = .ok (answer, s, none)) :
    bank.serve? i request = some (.ok (answer, bank.set i s)) := by
  have hi : bank[i.val].serve bank.size request = .ok (answer, s, none) := h
  simp [Bank.serve?, hi, bind, Except.bind, pure, Except.pure, Array.setIfInBounds]

theorem serve?_save (i : Fin bank.size) :
    bank.serve? i .save = some (.ok (.saved bank[i].toText, bank)) := by
  have h := serve?_eq i (rfl : bank[i].serve bank.size .save = .ok (_, bank[i], none))
  simpa using h

/-- A record that is loaded takes the place of the stream that it is loaded for. -/
theorem serve?_load_records (i : Fin bank.size) (h : Records text s) :
    bank.serve? i (.load text) = some (.ok (.loaded, bank.set i s)) := by
  have hs : ofText? text = some s := ofText?_eq_some_iff.mpr h
  exact serve?_eq i (by rw [serve, hs])

theorem serve?_load_other (i : Fin bank.size) (h : ∀ s, ¬ Records text s) :
    bank.serve? i (.load text) = some (.ok (.unreadable, bank)) := by
  have hnone : ofText? text = none :=
    Option.eq_none_iff_forall_ne_some.mpr fun s hs => h s (ofText?_eq_some_iff.mp hs)
  have hanswer : bank[i].serve bank.size (.load text) = .ok (.unreadable, bank[i], none) := by
    rw [serve, hnone]
  simpa using serve?_eq i hanswer

/-- A saved stream goes on where it was: whatever its words are, its text is read as the same
stream, and so it is by a bank, wherever it is loaded there. A text that is no record of a stream is
read as none, and a bank stays as it is. -/
theorem saved_loaded :
    (∀ s : Stream, ofText? s.toText = some s) ∧
    (∀ (s : Stream) (n : Nat),
      (ofText? s.toText).map (fun r => (r.advanceBy n).output) = some (s.advanceBy n).output) ∧
    (∀ text s, ofText? text = some s ↔ Records text s) ∧
    (∀ (bank : Bank) (i : Fin bank.size),
      bank.serve? i .save = some (.ok (.saved bank[i].toText, bank))) ∧
    (∀ (bank : Bank) (i : Fin bank.size) (s : Stream),
      bank.serve? i (.load s.toText) = some (.ok (.loaded, bank.set i s))) ∧
    ∀ (bank : Bank) (i : Fin bank.size) (text : String),
      (∃ s, Records text s ∧ bank.serve? i (.load text) = some (.ok (.loaded, bank.set i s))) ∨
      ((∀ s, ¬ Records text s) ∧
        bank.serve? i (.load text) = some (.ok (.unreadable, bank))) := by
  refine ⟨ofText?_toText, fun s n => ?_, fun text s => ofText?_eq_some_iff, fun _ => serve?_save,
    fun _ i s => serve?_load_records i (toText_records s), fun bank i text => ?_⟩
  · rw [ofText?_toText, Option.map_some]
  · by_cases h : ∃ s, Records text s
    · obtain ⟨s, hs⟩ := h
      exact .inl ⟨s, hs, serve?_load_records i hs⟩
    · exact .inr ⟨not_exists.mp h, serve?_load_other i (not_exists.mp h)⟩

end Espalier.Stream
