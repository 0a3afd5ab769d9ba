import Espalier.Proofs.Config.Validation
import Espalier.Proofs.Json.Members
import Mathlib.Data.List.Perm.Basic

/-!
# Members of a configuration document

A document that is an object is read by the names of its members. Those that have the name of a
field say what the field is, in whatever order they stand, and all others may hold what they like. A
field that is not named is as in the default; one that is named is what its member says, whether or
not there are others. To name a field twice is an error.

Results:
1. `ofValue?_members_iff`: what some members describe, field by field.
2. `ofValue?_perm`: their order does not count, and members with other names do not.
3. `ofText_members`: both, for documents as they are written.
-/

namespace Espalier.Config

open Json (Member Value WritesObject)
open Json.Value (lookup_eq_some_iff_mem)

variable {ms ms' : List Member} {fields fields' : Value.Fields} {c : Config} {f : Field}
  {text : String}

/-! ## Fields by name -/

theorem lookup_perm (h : (fields.map (·.1)).Nodup) (hperm : fields.Perm fields') (name : String) :
    fields.lookup name = fields'.lookup name := by
  have h' : (fields'.map (·.1)).Nodup := (hperm.map _).nodup_iff.mp h
  refine Option.ext fun v => ?_
  rw [lookup_eq_some_iff_mem h, lookup_eq_some_iff_mem h', hperm.mem_iff]

/-! ## Members by name -/

/-- What the members with names of fields say. -/
def fieldsOf (ms : List Member) : Value.Fields :=
  (ms.map fun m => (m.name, m.content)).filter fun (k, _) => fieldNames.contains k

theorem mem_fieldsOf_iff {name : String} {v : Value} : (name, v) ∈ fieldsOf ms ↔
    name ∈ fieldNames ∧ ∃ m ∈ ms, m.name = name ∧ m.content = v := by
  simp [fieldsOf, and_comm]

theorem names_fieldsOf (ms : List Member) :
    (fieldsOf ms).map (·.1) = (ms.map (·.name)).filter fun k => fieldNames.contains k := by
  simp [fieldsOf, List.filter_map, Function.comp_def]

theorem ofValue?_members_iff : ofValue? (.object (ms.map Member.entry)) = some c ↔
    ((fieldsOf ms).map (·.1)).Nodup ∧
      ∀ f : Field, (fieldsOf ms).getD? f.name f.read? (f.get default) = some (f.get c) := by
  have hnamed : Value.named fieldNames ms = fieldsOf ms := rfl
  rw [ofValue?_eq_some_iff, Value.fields?, Value.namedMembers?_entries, hnamed]
  by_cases h : ((fieldsOf ms).map (·.1)).Nodup <;> simp [h]

/-- Members that say the same of the fields describe the same, whatever they say of others. -/
theorem ofValue?_perm (h : (fieldsOf ms).Perm (fieldsOf ms')) :
    ofValue? (.object (ms.map Member.entry)) = ofValue? (.object (ms'.map Member.entry)) := by
  refine Option.ext fun c => ?_
  rw [ofValue?_members_iff, ofValue?_members_iff, (h.map _).nodup_iff]
  refine and_congr_right fun hnodup => forall_congr' fun f => ?_
  rw [Value.Fields.getD?, Value.Fields.getD?, lookup_perm ((h.map _).nodup_iff.mpr hnodup) h]

theorem ofValue?_repeated {before between after : List Member} {m m' : Member}
    (hms : ms = before ++ m :: between ++ m' :: after) (hname : m.name = m'.name)
    (hfield : m.name ∈ fieldNames) : ofValue? (.object (ms.map Member.entry)) = none := by
  refine Option.eq_none_iff_forall_ne_some.mpr fun c hc => ?_
  obtain ⟨hnodup, -⟩ := ofValue?_members_iff.mp hc
  have hnames : [m.name, m.name].Sublist (ms.map (·.name)) := by
    rw [hms, List.append_assoc, List.map_append]
    refine .trans ?_ (List.sublist_append_right _ _)
    exact .cons_cons _ (List.singleton_sublist.mpr (by simp [hname]))
  have hfields := hnames.filter fun k => fieldNames.contains k
  rw [← names_fieldsOf] at hfields
  simpa [hfield] using hfields.nodup hnodup

/-! ## One member alone -/

namespace Field

/-- The default, but for one field. -/
def only (c : Config) : Field → Config
  | seed => { default with seed := c.seed }
  | depth => { default with depth := c.depth }
  | rounds => { default with rounds := c.rounds }
  | candidates => { default with candidates := c.candidates }
  | maxTips => { default with maxTips := c.maxTips }
  | plant => { default with plant := c.plant }
  | guides => { default with guides := c.guides }

theorem get_only (c : Config) (f : Field) : f.get (f.only c) = f.get c := by
  cases f <;> rfl

theorem get_only_of_ne (c : Config) {f f' : Field} (h : f' ≠ f) :
    f'.get (f.only c) = f'.get default := by
  cases f <;> cases f' <;> first | rfl | exact absurd rfl h

end Field

theorem default_sound : default.Sound := cause?_eq_none_iff.mp (by decide +kernel)

theorem Sound.only (h : c.Sound) (f : Field) : (f.only c).Sound := by
  cases f with
  | candidates => exact ⟨h.candidates_pos, default_sound.guides_sound⟩
  | guides => exact ⟨default_sound.candidates_pos, h.guides_sound⟩
  | seed | depth | rounds | maxTips | plant =>
    exact ⟨default_sound.candidates_pos, default_sound.guides_sound⟩

theorem get_of_unnamed (hc : ofValue? (.object (ms.map Member.entry)) = some c)
    (h : ∀ m ∈ ms, m.name ≠ f.name) : f.get c = f.get default := by
  obtain ⟨hnodup, hread⟩ := ofValue?_members_iff.mp hc
  have hnone : (fieldsOf ms).lookup f.name = none := by
    refine Option.eq_none_iff_forall_ne_some.mpr fun v hv => ?_
    obtain ⟨-, m, hm, hname, -⟩ := mem_fieldsOf_iff.mp ((lookup_eq_some_iff_mem hnodup).mp hv)
    exact h m hm hname
  have hf := hread f
  rw [Value.Fields.getD?, hnone] at hf
  exact (Option.some.inj hf).symm

/-- What a member says of a field, it says alone. -/
theorem ofValue?_only {m : Member} (hc : ofValue? (.object (ms.map Member.entry)) = some c)
    (hm : m ∈ ms) (hname : m.name = f.name) :
    ofValue? (.object ([m].map Member.entry)) = some (f.only c) := by
  have hfield : f.name ∈ fieldNames := Field.mem_fieldNames_iff.mpr ⟨f, rfl⟩
  obtain ⟨hnodup, hread⟩ := ofValue?_members_iff.mp hc
  have hlookup : (fieldsOf ms).lookup f.name = some m.content :=
    (lookup_eq_some_iff_mem hnodup).mpr (mem_fieldsOf_iff.mpr ⟨hfield, m, hm, hname, rfl⟩)
  have halone : fieldsOf [m] = [(f.name, m.content)] := by simp [fieldsOf, hname, hfield]
  rw [ofValue?_members_iff, halone]
  refine ⟨List.nodup_singleton _, fun f' => ?_⟩
  by_cases hf : f' = f
  · subst hf
    have hf := hread f'
    rw [Value.Fields.getD?, hlookup] at hf
    rw [Field.get_only, Value.Fields.getD?, List.lookup_cons_self]
    exact hf
  · have hother : f'.name ≠ f.name := fun h => hf (Field.name_injective h)
    rw [Field.get_only_of_ne c hf, Value.Fields.getD?, List.lookup_cons,
      beq_eq_false_iff_ne.mpr hother]
    rfl

/-! ## Documents -/

theorem describes_iff (h : WritesObject text ms) :
    Describes text c ↔ ofValue? (.object (ms.map Member.entry)) = some c := by
  simp [Describes, h.ofText?_eq]

/-- Whatever is read as an object with texts for keys is an object of members. Such a document means
the same as another whose members say the same of the fields, in any order and with any other
members. A field that none names is as in the default, and what a member says of its field it also
says alone. A field that is named twice makes the document an error. -/
theorem ofText_members :
    (∀ text entries, (∀ e ∈ entries, e.1.isSome) →
      (Value.ofText? text = some (.object entries) ↔
        ∃ ms, WritesObject text ms ∧ ms.map Member.entry = entries)) ∧
    ∀ text ms, WritesObject text ms →
      (∀ text' ms', WritesObject text' ms' → (fieldsOf ms).Perm (fieldsOf ms') →
        ofText text = ofText text') ∧
      (∀ c, ofText text = .ok c → ∀ f : Field,
        ((∀ m ∈ ms, m.name ≠ f.name) → f.get c = f.get default) ∧
        ∀ m ∈ ms, m.name = f.name → ∀ alone, WritesObject alone [m] →
          ∃ c', ofText alone = .ok c' ∧ f.get c' = f.get c ∧
            ∀ f' ≠ f, f'.get c' = f'.get default) ∧
      ∀ before m between m' after, ms = before ++ m :: between ++ m' :: after →
        m.name = m'.name → m.name ∈ fieldNames → ofText text = .error (.config .malformed) := by
  refine ⟨fun text entries hkeys => ⟨fun h => Json.exists_writesObject h hkeys, ?_⟩,
    fun text ms h => ⟨fun text' ms' h' hperm => ?_, fun c hc f => ?_, ?_⟩⟩
  · rintro ⟨ms, hms, rfl⟩
    exact hms.ofText?_eq
  · rw [ofText, ofText, h.ofText?_eq, h'.ofText?_eq, Option.bind_some, Option.bind_some,
      ofValue?_perm hperm]
  · obtain ⟨hdescribes, hsound⟩ := ofText_eq_ok_iff.mp hc
    have hread := (describes_iff h).mp hdescribes
    refine ⟨get_of_unnamed hread, fun m hm hname alone halone => ⟨f.only c, ?_, f.get_only c,
      fun f' => f.get_only_of_ne c⟩⟩
    exact ofText_eq_ok_iff.mpr
      ⟨(describes_iff halone).mpr (ofValue?_only hread hm hname), hsound.only f⟩
  · intro before m between m' after hms hname hfield
    rw [ofText, h.ofText?_eq, Option.bind_some, ofValue?_repeated hms hname hfield]

-- A key may be spelled with escapes, and a member that is passed over need not be worth anything.
example :
    (ofText ("\x7b\"x\": [\x7b\"seed\": 1\x7d, \"\\ud800\", 1e999], " ++
      "\"\\u0073eed\": 7\x7d")).toOption.map (fun c => (c.seed, c.depth)) = some (7, 3) := by
  decide +kernel

end Espalier.Config
