import Espalier.Proofs.Config.Fields
import Espalier.Proofs.Json.Items
import Espalier.Proofs.Scalar.Range

/-!
# Which configurations are accepted

A configuration is sound if it has a candidate and all its guides are sound. Validation accepts the
sound ones and tells of each other one what is wrong with it, the candidate count before the guides,
and of the first guide that is not sound the multipliers before the offset.

A document is held to the same rules by what its literals are worth as singles. Whoever gives a
multiplier that only a double can hold is refused.

Results:
1. `hasFiniteMultipliers_iff`, `hasOffsetInRange_iff`: the two checks of a guide, exactly.
2. `Reports.cause?_eq`, `exists_reports`: what is reported of a configuration that is not sound.
3. `validation_exact`: what is accepted, of configurations and of documents.
-/

namespace Espalier

open Json (Number Value mem_of_mapM)

/-! ## Guides -/

namespace Guide

/-- What the charges of a guide are multiplied by. -/
def multipliers (g : Guide) : List Float32 :=
  [g.alignmentMultiplier, g.distanceMultiplier.1, g.distanceMultiplier.2.1,
    g.distanceMultiplier.2.2]

def FiniteMultipliers (g : Guide) : Prop := ∀ m ∈ g.multipliers, m.isFinite

/-- The offset is a number from `-1` to `1`. -/
def OffsetInRange (g : Guide) : Prop :=
  g.alignmentOffset.isFinite ∧ |value g.alignmentOffset.toModel.unpack| ≤ 1

def Sound (g : Guide) : Prop := g.FiniteMultipliers ∧ g.OffsetInRange

end Guide

namespace Config

theorem hasFiniteMultipliers_iff {g : Guide} : hasFiniteMultipliers g ↔ g.FiniteMultipliers := by
  simp [hasFiniteMultipliers, Guide.FiniteMultipliers, Guide.multipliers, and_assoc]

theorem hasOffsetInRange_iff {g : Guide} : hasOffsetInRange g ↔ g.OffsetInRange := by
  rw [hasOffsetInRange, Bool.and_eq_true, decide_eq_true_iff, decide_eq_true_iff]
  exact single_abs_le_one_iff

theorem guidesCause?_sound {g : Guide} (h : g.Sound) (index : Nat) (guides : List Guide) :
    guidesCause? index (g :: guides) = guidesCause? (index + 1) guides := by
  simp [guidesCause?, hasFiniteMultipliers_iff.mpr h.1, hasOffsetInRange_iff.mpr h.2]

/-- Sound guides are passed over. -/
theorem guidesCause?_append {before : List Guide} (h : ∀ g ∈ before, g.Sound) (index : Nat)
    (guides : List Guide) :
    guidesCause? index (before ++ guides) = guidesCause? (index + before.length) guides := by
  induction before generalizing index with
  | nil => rfl
  | cons g before ih =>
    rw [List.cons_append, guidesCause?_sound (h g List.mem_cons_self),
      ih fun g' hg' => h g' (List.mem_cons_of_mem _ hg'), List.length_cons, Nat.add_right_comm,
      Nat.add_assoc]

/-! ## Configurations -/

structure Sound (c : Config) : Prop where
  candidates_pos : 1 ≤ c.candidates
  guides_sound : ∀ g ∈ c.guides, g.Sound

/-- What is wrong with a configuration: that it has no candidates, or else what is wrong with the
first of its guides that is not sound. -/
inductive Reports (c : Config) : ConfigCause → Prop
  | noCandidates (h : c.candidates = 0) : Reports c .noCandidates
  | infiniteMultiplier {before after g} (hc : 1 ≤ c.candidates)
      (hguides : c.guides = before ++ g :: after) (hfirst : ∀ h ∈ before, h.Sound)
      (hg : ¬g.FiniteMultipliers) : Reports c (.infiniteMultiplier before.length)
  | offsetOutOfRange {before after g} (hc : 1 ≤ c.candidates)
      (hguides : c.guides = before ++ g :: after) (hfirst : ∀ h ∈ before, h.Sound)
      (hg : g.FiniteMultipliers) (hoffset : ¬g.OffsetInRange) :
      Reports c (.offsetOutOfRange before.length g.alignmentOffset)

variable {c : Config} {cause : ConfigCause}

theorem Sound.cause?_eq (h : c.Sound) : c.cause? = none := by
  have hnone := guidesCause?_append h.guides_sound 0 []
  rw [List.append_nil] at hnone
  rw [cause?, if_neg (Nat.ne_of_gt h.candidates_pos), hnone]
  rfl

theorem Reports.cause?_eq (h : c.Reports cause) : c.cause? = some cause := by
  cases h with
  | noCandidates h => rw [cause?, if_pos h]
  | infiniteMultiplier hc hguides hfirst hg =>
    rw [cause?, if_neg (Nat.ne_of_gt hc), hguides, guidesCause?_append hfirst, guidesCause?]
    simp [mt hasFiniteMultipliers_iff.mp hg]
  | offsetOutOfRange hc hguides hfirst hg hoffset =>
    rw [cause?, if_neg (Nat.ne_of_gt hc), hguides, guidesCause?_append hfirst, guidesCause?]
    simp [hasFiniteMultipliers_iff.mpr hg, mt hasOffsetInRange_iff.mp hoffset]

/-- Some guides are all sound, or there is a first one that is not. -/
theorem all_sound_or_first (guides : List Guide) : (∀ g ∈ guides, g.Sound) ∨
    ∃ before g after, guides = before ++ g :: after ∧ (∀ h ∈ before, h.Sound) ∧ ¬g.Sound := by
  induction guides with
  | nil => exact .inl nofun
  | cons g guides ih =>
    by_cases hg : g.Sound
    · rcases ih with hall | ⟨before, g', after, rfl, hbefore, hg'⟩
      · exact .inl (List.forall_mem_cons.mpr ⟨hg, hall⟩)
      · exact .inr ⟨g :: before, g', after, rfl, List.forall_mem_cons.mpr ⟨hg, hbefore⟩, hg'⟩
    · exact .inr ⟨[], g, guides, rfl, nofun, hg⟩

theorem exists_reports (h : ¬c.Sound) : ∃ cause, c.Reports cause := by
  rcases Nat.eq_zero_or_pos c.candidates with hzero | hc
  · exact ⟨_, .noCandidates hzero⟩
  rcases all_sound_or_first c.guides with hall | ⟨before, g, after, hguides, hfirst, hg⟩
  · exact absurd ⟨hc, hall⟩ h
  by_cases hfinite : g.FiniteMultipliers
  · exact ⟨_, .offsetOutOfRange hc hguides hfirst hfinite fun hoffset => hg ⟨hfinite, hoffset⟩⟩
  · exact ⟨_, .infiniteMultiplier hc hguides hfirst hfinite⟩

theorem cause?_eq_none_iff : c.cause? = none ↔ c.Sound := by
  refine ⟨fun h => ?_, Sound.cause?_eq⟩
  by_contra hunsound
  obtain ⟨cause, hcause⟩ := exists_reports hunsound
  rw [hcause.cause?_eq] at h
  cases h

theorem cause?_eq_some_iff : c.cause? = some cause ↔ c.Reports cause := by
  refine ⟨fun h => ?_, Reports.cause?_eq⟩
  have hunsound : ¬c.Sound := fun hsound => by
    rw [hsound.cause?_eq] at h
    cases h
  obtain ⟨cause', hcause'⟩ := exists_reports hunsound
  rw [hcause'.cause?_eq] at h
  cases h
  exact hcause'

theorem validate_eq_ok_iff : c.validate = .ok () ↔ c.Sound := by
  rw [← cause?_eq_none_iff, validate]
  cases c.cause? <;> simp

theorem validate_eq_error_iff {e : GrowthError} :
    c.validate = .error e ↔ ∃ cause, c.Reports cause ∧ e = .config cause := by
  simp only [← cause?_eq_some_iff, validate]
  cases c.cause? <;> simp [eq_comm]

/-! ## Documents -/

/-- The text is a document of the configuration, whether it is accepted or not. -/
def Describes (text : String) (c : Config) : Prop :=
  ∃ v, Value.ofText? text = some v ∧ ofValue? v = some c

theorem Describes.ofText_eq {text : String} (h : Describes text c) :
    ofText text = c.validate.map fun _ => c := by
  have hbind : (Value.ofText? text).bind ofValue? = some c := Option.bind_eq_some_iff.mpr h
  simp only [ofText, hbind]
  cases c.validate <;> rfl

theorem ofText_eq_ok_iff {text : String} : ofText text = .ok c ↔ Describes text c ∧ c.Sound := by
  constructor
  · intro h
    rw [ofText] at h
    split at h
    · cases h
    next c' hc' =>
      split at h
      next hok =>
        cases h
        exact ⟨Option.bind_eq_some_iff.mp hc', validate_eq_ok_iff.mp hok⟩
      · cases h
  · rintro ⟨hdescribes, hsound⟩
    rw [hdescribes.ofText_eq, validate_eq_ok_iff.mpr hsound, Except.map]

/-- A document that is accepted describes a sound configuration, so any other one is refused. -/
theorem exists_ofText_eq_error {text : String} (h : ∀ c, ¬(Describes text c ∧ c.Sound)) :
    ∃ cause, ofText text = .error (.config cause) := by
  cases hbind : (Value.ofText? text).bind ofValue? with
  | none => exact ⟨.malformed, by rw [ofText, hbind]⟩
  | some c =>
    have hdescribes : Describes text c := Option.bind_eq_some_iff.mp hbind
    obtain ⟨cause, hcause⟩ := exists_reports fun hsound => h c ⟨hdescribes, hsound⟩
    exact ⟨cause, by
      rw [hdescribes.ofText_eq, validate_eq_error_iff.mpr ⟨cause, hcause, rfl⟩, Except.map]⟩

/-! ## Multipliers of a document -/

/-- The value is written for one of the guides of a document. -/
def WritesGuide (document guide : Value) : Prop :=
  ∃ fields items, document.fields? fieldNames = some fields ∧
    fields.lookup "guides" = some (.array items) ∧ guide ∈ items

/-- The literal is written for one of the multipliers of a guide. -/
inductive WritesMultiplier (guide : Value) (n : Number) : Prop
  | alignment {fields} (hfields : guide.fields? guideFields = some fields)
      (hn : fields.lookup "alignment_multiplier" = some (.number n))
  | distance {fields items} (hfields : guide.fields? guideFields = some fields)
      (hitems : fields.lookup "distance_multiplier" = some (.array items))
      (hn : .number n ∈ items)

/-- Each guide that is written is one of the configuration. -/
theorem WritesGuide.read {document guide : Value} (h : WritesGuide document guide)
    (hc : ofValue? document = some c) : ∃ g ∈ c.guides, guide? guide = some g := by
  obtain ⟨fields, items, hfields, hitems, hguide⟩ := h
  obtain ⟨fields', hfields', hread⟩ := ofValue?_eq_some_iff.mp hc
  cases hfields.symm.trans hfields'
  have hguides := hread .guides
  rw [Value.Fields.getD?] at hguides
  simp only [Field.name, hitems] at hguides
  exact mem_of_mapM hguides hguide

theorem triple?_mem {v x : Value} {t : Float32 × Float32 × Float32} {items : List Value}
    (h : triple? v = some t) (hv : v = .array items) (hx : x ∈ items) :
    ∃ m ∈ [t.1, t.2.1, t.2.2], x.single? = some m := by
  subst hv
  simp only [triple?, bind, Option.bind_eq_some_iff] at h
  obtain ⟨ys, hys, h⟩ := h
  split at h
  · cases h
    exact mem_of_mapM hys hx
  · cases h

/-- Each multiplier that is written is one of the guide, as a single. -/
theorem WritesMultiplier.read {guide : Value} {n : Number} {g : Guide}
    (h : WritesMultiplier guide n) (hg : guide? guide = some g) :
    ∃ m ∈ g.multipliers, n.toSingle? = some m := by
  simp only [guide?, bind, Option.bind_eq_some_iff, Option.some.injEq] at hg
  obtain ⟨fields, hfields, _, -, t, ht, m, hm, _, -, rfl⟩ := hg
  cases h with
  | alignment hfields' hn =>
    cases hfields.symm.trans hfields'
    rw [Value.Fields.get?, hn] at hm
    exact ⟨m, by simp [Guide.multipliers], hm⟩
  | distance hfields' hitems hn =>
    cases hfields.symm.trans hfields'
    rw [Value.Fields.get?, hitems] at ht
    obtain ⟨m', hm', hsingle⟩ := triple?_mem ht rfl hn
    exact ⟨m', List.mem_cons_of_mem _ hm', hsingle⟩

end Config

/-- A literal that is no word, and that stands, if for a double at all, for one that is beyond the
largest single by half a unit of its last place or more. -/
def Json.Number.Overflows (n : Number) : Prop :=
  ¬(n.isWhole ∧ natOfDigits n.whole < UInt64.size) ∧
    ∀ x, n.toDouble? = some x → 2 ^ 128 - 2 ^ 103 ≤ |value x.toModel.unpack|

theorem Json.Number.Overflows.toSingle? {n : Number} (h : n.Overflows) {x : Float32}
    (hx : n.toSingle? = some x) : x.isFinite = false := by
  obtain ⟨hword, hlarge⟩ := h
  have hsize : UInt64.size = 2 ^ 64 := rfl
  unfold Number.toSingle? at hx
  simp only at hx
  split at hx
  next hwhole => exact absurd ⟨hwhole.1, hwhole.2.2⟩ hword
  split at hx
  next hwhole => exact absurd ⟨hwhole.1, by omega⟩ hword
  obtain ⟨d, hd, rfl⟩ := Option.map_eq_some_iff.mp hx
  exact narrow_infinite (hlarge d hd)

namespace Config

/-- Validation accepts the sound configurations, and reports of each other one what is wrong with
it. A document is accepted if it describes a sound configuration; of one that is not sound the same
is reported. So a document is refused if it writes a multiplier that overflows a single. -/
theorem validation_exact :
    (∀ c : Config, (c.validate = .ok () ↔ c.Sound) ∧
      ∀ e, c.validate = .error e ↔ ∃ cause, c.Reports cause ∧ e = .config cause) ∧
    (∀ text c, ofText text = .ok c ↔ Describes text c ∧ c.Sound) ∧
    (∀ text c cause, Describes text c → c.Reports cause →
      ofText text = .error (.config cause)) ∧
    ∀ text document guide n, Value.ofText? text = some document → WritesGuide document guide →
      WritesMultiplier guide n → n.Overflows → ∃ cause, ofText text = .error (.config cause) := by
  refine ⟨fun c => ⟨validate_eq_ok_iff, fun e => validate_eq_error_iff⟩,
    fun text c => ofText_eq_ok_iff, fun text c cause hdescribes hcause => ?_,
    fun text document guide n hdocument hguide hn hoverflows => ?_⟩
  · rw [hdescribes.ofText_eq, validate_eq_error_iff.mpr ⟨cause, hcause, rfl⟩, Except.map]
  · refine exists_ofText_eq_error fun c ⟨⟨v, hv, hc⟩, hsound⟩ => ?_
    cases hdocument.symm.trans hv
    obtain ⟨g, hg, hread⟩ := hguide.read hc
    obtain ⟨m, hm, hsingle⟩ := hn.read hread
    have hfinite := (hsound.guides_sound g hg).1 m hm
    rw [hoverflows.toSingle? hsingle] at hfinite
    cases hfinite

-- A multiplier of `10 ^ 39` is an infinity as a single.
example :
    (match ofText ("\x7b\"guides\": [[[\"line\", [0, 0, 0], [0, 1, 0]], [0, 0, 1], 10, 0], " ++
      "[[\"line\", [0, 0, 0], [0, 1, 0]], [0, 1e39, 1], 10, 2]]\x7d") with
    | .error (.config (.infiniteMultiplier guide)) => some guide
    | _ => none) = some 1 := by decide +kernel

end Config

end Espalier
