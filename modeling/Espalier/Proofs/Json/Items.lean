import Espalier.Proofs.Json.Members
import Mathlib.Data.List.Forall2

/-!
# Arrays as they are written

An array is written as its items between brackets, with commas between them, and each item is a
text that may be read on its own.

Results:
1. `WritesArray.ofText?_eq`, `exists_writesArray`: how an array of some items is read, and that each
   text that is read as an array is made of items.
2. `list?_eq_some_iff`: an array is decoded item by item.
3. `Value.field_iff`: where the one field of a record stands.
-/

namespace Espalier.Json

open Token (Spells isBlank)
open Value (Reads ReadsItems)

/-- An item of an array as it is written, with what is read of it. -/
structure Item where
  text : String
  content : Value
  reads : Value.ofText? text = some content

/-- Some items, with commas between them. -/
def Item.joined (is : List Item) : String := ",".intercalate (is.map text)

/-- The text is an array of the given items. -/
def WritesArray (text : String) (is : List Item) : Prop :=
  ∃ front inside back : String, (∀ c ∈ (front ++ inside ++ back).toList, isBlank c) ∧
    text = front ++ "[" ++ inside ++ Item.joined is ++ "]" ++ back

variable {text : String} {is : List Item} {cs : List Char} {ts : List Token}

/-! ## From items to an array -/

theorem Item.spells_joined (his : is ≠ []) : ∃ ts, ReadsItems ts (is.map content) ∧
    Spells (joined is).toList ts := by
  induction is with
  | nil => exact absurd rfl his
  | cons i is ih =>
    obtain ⟨ts, hspells, hreads⟩ := Value.ofText?_eq_some.mp i.reads
    cases is with
    | nil => exact ⟨ts, .last hreads, by simpa [joined] using hspells⟩
    | cons i' is =>
      obtain ⟨us, hitems, hjoined⟩ := ih (List.cons_ne_nil i' is)
      refine ⟨_, .more hreads hitems, ?_⟩
      have hcomma : Token.mark? ',' = some .comma := rfl
      have h := hspells.append (Token.bounded_of_mark hcomma _) (.mark hcomma hjoined)
      simpa [joined] using h

/-- An array is read as its items say, in the order in which they are written. -/
theorem WritesArray.ofText?_eq (h : WritesArray text is) :
    Value.ofText? text = some (.array (is.map Item.content)) := by
  obtain ⟨front, inside, back, hblank, rfl⟩ := h
  refine Value.ofText?_eq_some.mpr ?_
  by_cases his : is = []
  · subst his
    exact ⟨_, Token.squareBrackets.enclose hblank .nil,
      Value.reads_array_iff.mpr (.inl ⟨rfl, rfl⟩)⟩
  · obtain ⟨ts, hreads, hspells⟩ := Item.spells_joined his
    exact ⟨_, Token.squareBrackets.enclose hblank hspells,
      Value.reads_array_iff.mpr (.inr ⟨ts, hreads, rfl⟩)⟩

/-! ## From an array to its items -/

theorem exists_item {v : Value} (hspells : Spells cs ts) (hreads : Reads ts v) :
    ∃ i : Item, i.content = v ∧ i.text.toList = cs :=
  ⟨⟨.ofList cs, v, Value.ofText?_eq_some.mpr ⟨ts, by rwa [String.toList_ofList], hreads⟩⟩, rfl,
    String.toList_ofList⟩

/-- The items of an array are those between its commas. -/
theorem exists_joined_items {vs : List Value} (hreads : ReadsItems ts vs) (hspells : Spells cs ts) :
    ∃ is : List Item, is ≠ [] ∧ is.map Item.content = vs ∧ (Item.joined is).toList = cs := by
  induction hreads generalizing cs with
  | last h =>
    obtain ⟨i, hi, htext⟩ := exists_item hspells h
    exact ⟨[i], by simp, by simp [hi], by simp [Item.joined, htext]⟩
  | more h _ ih =>
    obtain ⟨before, after, rfl, hbefore, hafter⟩ :=
      hspells.cut (show Token.mark? ',' = some .comma from rfl)
    obtain ⟨i, hi, htext⟩ := exists_item hbefore h
    obtain ⟨is, hne, his, hjoined⟩ := ih hafter
    obtain ⟨i', is, rfl⟩ := List.exists_cons_of_ne_nil hne
    refine ⟨i :: i' :: is, by simp, by simp [hi, ← his], ?_⟩
    simp [Item.joined, htext, ← hjoined]

/-- Each text that is read as an array is an array of items. -/
theorem exists_writesArray {vs : List Value} (h : Value.ofText? text = some (.array vs)) :
    ∃ is, WritesArray text is ∧ is.map Item.content = vs := by
  obtain ⟨ts, hspells, hreads⟩ := Value.ofText?_eq_some.mp h
  rcases Value.reads_array_iff.mp hreads with ⟨rfl, rfl⟩ | ⟨us, hitems, rfl⟩
  · obtain ⟨front, inside, body, back, hblank, rfl, -, hempty⟩ :=
      @Token.Brackets.enclosed [] _ _ _ _ _ Token.squareBrackets hspells
    cases hempty rfl
    exact ⟨[], ⟨front, inside, back, hblank, rfl⟩, rfl⟩
  · obtain ⟨front, inside, body, back, hblank, rfl, hbody, -⟩ :=
      Token.squareBrackets.enclosed hspells
    obtain ⟨is, -, his, hjoined⟩ := exists_joined_items hitems hbody
    exact ⟨is, ⟨front, inside, back, hblank, by rw [String.toList_inj.mp hjoined]⟩, his⟩

/-! ## Decoding -/

theorem mapM_eq_some_iff {α β : Type} {f : α → Option β} {xs : List α} {ys : List β} :
    xs.mapM f = some ys ↔ List.Forall₂ (fun x y => f x = some y) xs ys := by
  induction xs generalizing ys with
  | nil => simp [eq_comm]
  | cons x xs ih =>
    simp only [List.mapM_cons, bind, pure, Option.bind_eq_some_iff, Option.some.injEq, ih,
      List.forall₂_cons_left_iff]
    constructor
    · rintro ⟨y, hy, ys', hys, rfl⟩
      exact ⟨y, ys', hy, hys, rfl⟩
    · rintro ⟨y, ys', hy, hys, rfl⟩
      exact ⟨y, hy, ys', hys, rfl⟩

theorem mem_of_mapM {α β : Type} {f : α → Option β} {xs : List α} {ys : List β} {x : α}
    (h : xs.mapM f = some ys) (hx : x ∈ xs) : ∃ y ∈ ys, f x = some y := by
  induction mapM_eq_some_iff.mp h with
  | nil => cases hx
  | @cons x' y xs ys hxy hxs ih =>
    rcases List.mem_cons.mp hx with rfl | hx
    · exact ⟨y, List.mem_cons_self, hxy⟩
    · obtain ⟨y', hy', hx'⟩ := ih (mapM_eq_some_iff.mpr hxs) hx
      exact ⟨y', List.mem_cons_of_mem _ hy', hx'⟩

/-- An array is decoded item by item. -/
theorem list?_eq_some_iff {β : Type} {item? : Value → Option β} {xs : List β} {v : Value}
    (hv : Value.ofText? text = some v) : v.list? item? = some xs ↔
      ∃ is, WritesArray text is ∧ List.Forall₂ (fun i x => item? i.content = some x) is xs := by
  constructor
  · intro h
    obtain ⟨vs, hvs, hxs⟩ := Option.bind_eq_some_iff.mp h
    unfold Value.items? at hvs
    split at hvs <;> cases hvs
    obtain ⟨is, his, rfl⟩ := exists_writesArray hv
    exact ⟨is, his, List.forall₂_map_left_iff.mp (mapM_eq_some_iff.mp hxs)⟩
  · rintro ⟨is, his, hxs⟩
    cases hv.symm.trans his.ofText?_eq
    exact mapM_eq_some_iff.mpr (List.forall₂_map_left_iff.mpr hxs)

/-! ## Records of one field -/

namespace Value

variable {name : String} {ms : List Member} {v w : Value} {fields : Fields}

/-- The members are named once in all. -/
theorem named_eq_singleton_iff : named [name] ms = [(name, w)] ↔ ∃ before m after,
    ms = before ++ m :: after ∧ m.name = name ∧ m.content = w ∧
      ∀ m' ∈ before ++ after, m'.name ≠ name := by
  have hnil : ∀ ms, named [name] ms = [] ↔ ∀ m ∈ ms, m.name ≠ name := fun ms => by simp [named]
  constructor
  · intro h
    induction ms with
    | nil => cases h
    | cons m ms ih =>
      by_cases hm : m.name = name
      · have hsplit : named [name] (m :: ms) = (m.name, m.content) :: named [name] ms := by
          simp [named, hm]
        rw [hsplit, List.cons.injEq, Prod.mk.injEq, hnil] at h
        exact ⟨[], m, ms, rfl, hm, h.1.2, h.2⟩
      · have hskip : named [name] (m :: ms) = named [name] ms := by simp [named, hm]
        obtain ⟨before, m', after, rfl, hname, hcontent, hothers⟩ := ih (hskip ▸ h)
        exact ⟨m :: before, m', after, rfl, hname, hcontent,
          List.forall_mem_cons.mpr ⟨hm, hothers⟩⟩
  · rintro ⟨before, m, after, rfl, rfl, rfl, hothers⟩
    obtain ⟨hbefore, hafter⟩ := List.forall_mem_append.mp hothers
    have hparts : named [m.name] (before ++ m :: after) =
        named [m.name] before ++ (m.name, m.content) :: named [m.name] after := by simp [named]
    rw [hparts, (hnil before).mpr hbefore, (hnil after).mpr hafter, List.nil_append]

/-- Fields with one name are read if there is one of them. -/
theorem named_lookup_iff : ((named [name] ms).map (·.1)).Nodup ∧
    (named [name] ms).lookup name = some w ↔ named [name] ms = [(name, w)] := by
  constructor
  · rintro ⟨hnodup, hlookup⟩
    -- All that is left has the one name, so there is no second one.
    have hnames : ∀ e ∈ named [name] ms, e.1 = name := by
      rintro e he
      simpa using (List.mem_filter.mp he).2
    generalize named [name] ms = fields at hnodup hlookup hnames
    cases fields with
    | nil => cases hlookup
    | cons e es =>
      obtain ⟨hnew, -⟩ := List.nodup_cons.mp hnodup
      have he := hnames e List.mem_cons_self
      have hes : es = [] := List.eq_nil_iff_forall_not_mem.mpr fun e' he' =>
        hnew (List.mem_map.mpr ⟨e', he', (hnames e' (List.mem_cons_of_mem _ he')).trans he.symm⟩)
      subst hes
      simpa [eq_comm] using (lookup_eq_some_iff_mem hnodup).mp hlookup
  · intro h
    simp [h]

theorem keys_of_namedMembers? {names : List String} {entries : List (Text × Value)}
    (h : namedMembers? names entries = some fields) : ∀ e ∈ entries, e.1.isSome := by
  intro e he
  obtain ⟨named, hnamed, -⟩ := Option.bind_eq_some_iff.mp h
  obtain ⟨_, -, hread⟩ := mem_of_mapM hnamed he
  obtain ⟨name, hname, -⟩ := Option.map_eq_some_iff.mp hread
  exact Option.isSome_iff_exists.mpr ⟨name, hname⟩

/-- The one field of a record is the value of the one member that has its name, or the one item of
an array. -/
theorem field_iff : (∃ v fields, ofText? text = some v ∧ v.fields? [name] = some fields ∧
      fields.lookup name = some w) ↔
    (∃ before m after, WritesObject text (before ++ m :: after) ∧ m.name = name ∧ m.content = w ∧
      ∀ m' ∈ before ++ after, m'.name ≠ name) ∨
    ∃ i, WritesArray text [i] ∧ i.content = w := by
  constructor
  · rintro ⟨v, fields, hv, hfields, hlookup⟩
    unfold fields? at hfields
    split at hfields
    next entries =>
      obtain ⟨ms, hms, rfl⟩ := exists_writesObject hv (keys_of_namedMembers? hfields)
      rw [namedMembers?_entries] at hfields
      split at hfields
      next hnodup =>
        cases hfields
        obtain ⟨before, m, after, rfl, hm⟩ :=
          named_eq_singleton_iff.mp (named_lookup_iff.mp ⟨hnodup, hlookup⟩)
        exact .inl ⟨before, m, after, hms, hm⟩
      · cases hfields
    next vs =>
      split at hfields
      next hlength =>
        cases hfields
        obtain ⟨is, his, rfl⟩ := exists_writesArray hv
        cases is with
        | nil => cases hlookup
        | cons i is =>
          have hnil : is = [] := by simpa using hlength
          subst hnil
          exact .inr ⟨i, his, by simpa using hlookup⟩
      · cases hfields
    · cases hfields
  · rintro (⟨before, m, after, hms, hm⟩ | ⟨i, hi, rfl⟩)
    · have hnamed := named_eq_singleton_iff.mpr ⟨before, m, after, rfl, hm⟩
      refine ⟨_, _, hms.ofText?_eq, ?_, (named_lookup_iff.mpr hnamed).2⟩
      rw [fields?, namedMembers?_entries, if_pos (named_lookup_iff.mpr hnamed).1]
    · exact ⟨_, [(name, i.content)], hi.ofText?_eq, rfl, by simp⟩

end Value

end Espalier.Json
