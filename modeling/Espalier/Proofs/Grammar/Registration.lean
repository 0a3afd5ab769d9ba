import Espalier.Proofs.Grammar.Definitions

/-!
# The table of rules under any definitions

Definitions are offered to a grammar one after the other. One that is refused leaves the table as it
was, so the table is that of the accepted definitions: under each name there is nothing, or the one
plain rule or rule with a probability that was accepted, or the accepted alternatives in order. A
name that is taken keeps its kind, and only a weighted rule ever changes, by one alternative more.

Results:
1. `define_eq_error`: why a definition is refused, and that nothing else is.
2. `Registers.define`: what an accepted definition does to the table.
3. `after_registers`: the table after any definitions, accepted or not.
-/

namespace Espalier

inductive RuleKind where
  | plain
  | weighted
  | maybe
deriving DecidableEq

def Rule.kind {a : Access} : Rule a → RuleKind
  | .plain _ => .plain
  | .weighted _ => .weighted
  | .maybe _ _ => .maybe

namespace Grammar

variable {a : Access} {g g' : Grammar a} {name n : String} {r : Rule a} {d : Definition a}
  {e : GrowthError} {kept ds : List (Definition a)}

/-! ## Reading a changed table -/

theorem rule?_insert (hfree : g.rule? name = none) :
    (g.insert name r).rule? n = if n = name then some r else g.rule? n := by
  rw [rule?, insert, List.lookup_append]
  by_cases hn : n = name
  · subst hn
    have hnone : g.rules.lookup n = none := hfree
    rw [if_pos rfl, hnone]
    simp
  · rw [if_neg hn, List.lookup_cons, beq_false_of_ne hn]
    exact Option.or_none

theorem rule?_replace :
    (g.replace name r).rule? n = (g.rule? n).map fun old => if n = name then r else old := by
  obtain ⟨rules⟩ := g
  simp only [rule?, replace]
  induction rules with
  | nil => rfl
  | cons entry rules ih =>
    obtain ⟨key, old⟩ := entry
    rw [List.map_cons, List.lookup_cons, List.lookup_cons]
    by_cases hkey : n = key
    · subst hkey
      simp
    · simp [beq_false_of_ne hkey, ih]

theorem names_insert (hnames : (g.rules.map (·.1)).Nodup) (hfree : g.rule? name = none) :
    ((g.insert name r).rules.map (·.1)).Nodup := by
  rw [insert, List.map_append, List.map_singleton, List.nodup_append]
  refine ⟨hnames, List.pairwise_singleton _ _, ?_⟩
  rintro key hkey _ hname rfl
  obtain ⟨⟨key, old⟩, hmem, rfl⟩ := List.mem_map.mp hkey
  have hne := List.lookup_eq_none_iff.mp hfree _ hmem
  rw [List.mem_singleton.mp hname] at hne
  simp at hne

theorem names_replace : (g.replace name r).rules.map (·.1) = g.rules.map (·.1) := by
  simp [replace]

/-! ## Refused definitions -/

/-- Why a grammar refuses a definition. A number out of range comes first. -/
inductive Refuses (g : Grammar a) : Definition a → GrowthError → Prop
  | weight {name : String} {weight : Float} {body : Body a}
      (range : ¬(weight.isFinite ∧ 0 < weight)) :
      Refuses g (.weighted name weight body) (.invalidWeight name weight)
  | probability {name : String} {probability : Float} {body : Body a}
      (range : ¬(0 ≤ probability ∧ probability ≤ 1)) :
      Refuses g (.maybe name probability body) (.invalidProbability name probability)
  | kind {name : String} {weight : Float} {body : Body a} {r : Rule a}
      (range : weight.isFinite ∧ 0 < weight) (held : g.rule? name = some r)
      (other : r.kind ≠ .weighted) :
      Refuses g (.weighted name weight body) (.ruleKindConflict name)
  | plain {name : String} {body : Body a} (taken : g.contains name) :
      Refuses g (.plain name body) (.duplicateRule name)
  | maybe {name : String} {probability : Float} {body : Body a}
      (range : 0 ≤ probability ∧ probability ≤ 1) (taken : g.contains name) :
      Refuses g (.maybe name probability body) (.duplicateRule name)

theorem refuses_of_define (h : g.define d = .error e) : g.Refuses d e := by
  cases d with
  | plain name body =>
    simp only [define] at h
    split at h
    next htaken =>
      cases h
      exact .plain htaken
    · cases h
  | weighted name weight body =>
    simp only [define] at h
    split at h
    next husable =>
      cases h
      refine .weight fun hrange => ?_
      rw [Stream.isUsable_iff.mpr hrange] at husable
      cases husable
    next husable =>
      have hrange := Stream.isUsable_iff.mp (by simpa using husable)
      split at h
      · cases h
      next r hother hheld =>
        cases h
        refine .kind hrange hheld fun hkind => ?_
        cases r with
        | weighted alternatives => exact hother alternatives rfl
        | plain body => cases hkind
        | maybe probability body => cases hkind
      · cases h
  | maybe name probability body =>
    simp only [define] at h
    split at h
    next hprobability =>
      cases h
      refine .probability fun hrange => ?_
      rw [isProbability_iff.mpr hrange] at hprobability
      cases hprobability
    next hprobability =>
      split at h
      next htaken =>
        cases h
        exact .maybe (isProbability_iff.mp (by simpa using hprobability)) htaken
      · cases h

theorem define_of_refuses (h : g.Refuses d e) : g.define d = .error e := by
  cases h with
  | weight hrange =>
    rw [define, if_pos]
    simpa using fun husable => hrange (Stream.isUsable_iff.mp husable)
  | probability hrange =>
    rw [define, if_pos]
    simpa using fun hprobability => hrange (isProbability_iff.mp hprobability)
  | @kind name weight body r hrange hheld hother =>
    rw [define, if_neg (by simpa using Stream.isUsable_iff.mpr hrange), hheld]
    cases r with
    | weighted alternatives => exact absurd rfl hother
    | plain body => rfl
    | maybe probability body => rfl
  | plain htaken => rw [define, if_pos htaken]
  | maybe hrange htaken =>
    rw [define, if_neg (by simpa using isProbability_iff.mpr hrange), if_pos htaken]

/-- A definition is refused for these reasons and for no other. -/
theorem define_eq_error : g.define d = .error e ↔ g.Refuses d e :=
  ⟨refuses_of_define, define_of_refuses⟩

/-! ## What the table holds -/

/-- What is under a name of the table, by the definitions that were accepted for that name. -/
inductive Entry (name : String) : Option (Rule a) → List (Definition a) → Prop
  | absent : Entry name none []
  | plain (body : Body a) : Entry name (some (.plain body)) [.plain name body]
  | maybe (probability : Float) (body : Body a) (range : 0 ≤ probability ∧ probability ≤ 1) :
      Entry name (some (.maybe probability body)) [.maybe name probability body]
  | weighted (alternatives : List (Alternative a)) (nonempty : alternatives ≠ [])
      (range : ∀ a ∈ alternatives, a.weight.isFinite ∧ 0 < a.weight) :
      Entry name (some (.weighted alternatives))
        (alternatives.map fun a => .weighted name a.weight a.body)

/-- The definitions of a name. -/
def definitionsOf (name : String) (ds : List (Definition a)) : List (Definition a) :=
  ds.filter (·.name = name)

/-- The table holds the accepted definitions and nothing else. -/
structure Registers (kept : List (Definition a)) (g : Grammar a) : Prop where
  names : (g.rules.map (·.1)).Nodup
  entry : ∀ name, Entry name (g.rule? name) (definitionsOf name kept)

theorem empty_registers : Registers [] (empty : Grammar a) := ⟨List.nodup_nil, fun _ => .absent⟩

theorem definitionsOf_append (name : String) (kept : List (Definition a)) (d : Definition a) :
    definitionsOf name (kept ++ [d]) =
      definitionsOf name kept ++ if d.name = name then [d] else [] := by
  simp [definitionsOf, List.filter_append, List.filter_singleton, Bool.cond_decide]

theorem Entry.rule (h : d.InRange) : Entry d.name (some d.rule) [d] := by
  cases d with
  | plain name body => exact .plain body
  | weighted name weight body =>
    exact .weighted [⟨weight, body⟩] (List.cons_ne_nil _ _) (List.forall_mem_singleton.mpr h)
  | maybe name probability body => exact .maybe probability body h

theorem Entry.of_none (h : Entry name none ds) : ds = [] := by
  cases h
  rfl

/-- A weighted rule takes one alternative more. -/
theorem Entry.extend {alternatives : List (Alternative a)} {weight : Float}
    (h : Entry name (some (.weighted alternatives)) ds) (hrange : weight.isFinite ∧ 0 < weight)
    (body : Body a) :
    Entry name (some (.weighted (alternatives ++ [⟨weight, body⟩])))
      (ds ++ [.weighted name weight body]) := by
  cases h with
  | weighted _ _ hall =>
    let more : List (Alternative a) := alternatives ++ [⟨weight, body⟩]
    have hmore : more ≠ [] := List.append_ne_nil_of_right_ne_nil _ (List.cons_ne_nil _ _)
    have hentry : Entry name _ _ := .weighted more hmore
      (List.forall_mem_append.mpr ⟨hall, List.forall_mem_singleton.mpr hrange⟩)
    rwa [List.map_append, List.map_singleton] at hentry

/-- An accepted definition is registered as the last one. -/
theorem Registers.define (h : Registers kept g) (hd : g.define d = .ok g') :
    Registers (kept ++ [d]) g' := by
  obtain ⟨hrange, hcases⟩ := define_cases hd
  have hentry := h.entry d.name
  rcases hcases with ⟨hfree, rfl⟩ | ⟨alternatives, weight, body, hd', hheld, rfl⟩
  · refine ⟨names_insert h.names hfree, fun name => ?_⟩
    rw [rule?_insert hfree, definitionsOf_append]
    by_cases hname : d.name = name
    · subst hname
      rw [hfree] at hentry
      rw [if_pos rfl, if_pos rfl, hentry.of_none]
      exact Entry.rule hrange
    · rw [if_neg hname, if_neg (Ne.symm hname), List.append_nil]
      exact h.entry name
  · refine ⟨names_replace.symm ▸ h.names, fun name => ?_⟩
    rw [rule?_replace, definitionsOf_append]
    by_cases hname : d.name = name
    · subst hname
      rw [hheld] at hentry
      rw [hheld, if_pos rfl, Option.map_some, if_pos rfl]
      rw [hd'] at hrange
      have hmore := hentry.extend hrange body
      rwa [← hd'] at hmore
    · rw [if_neg hname, List.append_nil]
      have hsame : (fun old => if name = d.name then
          Rule.weighted (alternatives ++ [⟨weight, body⟩]) else old) = id :=
        funext fun old => if_neg (Ne.symm hname)
      rw [hsame, Option.map_id]
      exact h.entry name

/-! ## Any definitions -/

/-- The grammar after a definition is offered to it. One that is refused leaves it. -/
def offer (g : Grammar a) (d : Definition a) : Grammar a :=
  match g.define d with
  | .ok g' => g'
  | .error _ => g

/-- The grammar after definitions are offered to it, one after the other. -/
def after (g : Grammar a) (ds : List (Definition a)) : Grammar a := ds.foldl offer g

/-- Those of the definitions that are accepted. -/
def accepted (g : Grammar a) : List (Definition a) → List (Definition a)
  | [] => []
  | d :: ds =>
    match g.define d with
    | .ok g' => d :: g'.accepted ds
    | .error _ => g.accepted ds

theorem offer_of_ok (h : g.define d = .ok g') : g.offer d = g' := by
  rw [offer, h]

theorem offer_of_error (h : g.define d = .error e) : g.offer d = g := by
  rw [offer, h]

theorem Registers.after (h : Registers kept g) (ds : List (Definition a)) :
    Registers (kept ++ g.accepted ds) (g.after ds) := by
  induction ds generalizing g kept with
  | nil => rwa [accepted, List.append_nil]
  | cons d ds ih =>
    rw [Grammar.after, List.foldl_cons, accepted]
    cases hd : g.define d with
    | error e =>
      rw [offer_of_error hd]
      exact ih h
    | ok g' =>
      have hrest := ih (h.define hd)
      rw [List.append_assoc, List.singleton_append] at hrest
      rwa [offer_of_ok hd]

/-- The refused definitions might as well not have been offered. -/
theorem foldlM_accepted (g : Grammar a) (ds : List (Definition a)) :
    (g.accepted ds).foldlM define g = .ok (g.after ds) := by
  induction ds generalizing g with
  | nil => rfl
  | cons d ds ih =>
    rw [after, List.foldl_cons, accepted]
    cases hd : g.define d with
    | error e =>
      rw [offer_of_error hd]
      exact ih g
    | ok g' =>
      rw [offer_of_ok hd]
      simp only [List.foldlM_cons, hd]
      exact ih g'

/-- A name that is taken keeps the kind of its rule, and the rule itself unless it is weighted. -/
theorem offer_keeps (h : g.rule? name = some r) (d : Definition a) :
    ∃ r', (g.offer d).rule? name = some r' ∧ r'.kind = r.kind ∧ (r.kind ≠ .weighted → r' = r) := by
  cases hd : g.define d with
  | error e =>
    rw [offer_of_error hd]
    exact ⟨r, h, rfl, fun _ => rfl⟩
  | ok g' =>
    rw [offer_of_ok hd]
    obtain ⟨-, ⟨hfree, rfl⟩ | ⟨alternatives, weight, body, -, hheld, rfl⟩⟩ := define_cases hd
    · have hne : name ≠ d.name := fun heq => by rw [heq, hfree] at h; cases h
      exact ⟨r, by rw [rule?_insert hfree, if_neg hne, h], rfl, fun _ => rfl⟩
    · rw [rule?_replace, h, Option.map_some]
      by_cases hname : name = d.name
      · rw [hname, hheld] at h
        cases h
        exact ⟨_, rfl, by rw [if_pos hname]; rfl, fun hkind => absurd rfl hkind⟩
      · exact ⟨r, by rw [if_neg hname], rfl, fun _ => rfl⟩

theorem after_keeps (h : g.rule? name = some r) (ds : List (Definition a)) :
    ∃ r', (g.after ds).rule? name = some r' ∧ r'.kind = r.kind ∧ (r.kind ≠ .weighted → r' = r) := by
  induction ds generalizing g r with
  | nil => exact ⟨r, h, rfl, fun _ => rfl⟩
  | cons d ds ih =>
    obtain ⟨r₁, hr₁, hkind₁, hsame₁⟩ := offer_keeps h d
    obtain ⟨r₂, hr₂, hkind₂, hsame₂⟩ := ih hr₁
    refine ⟨r₂, hr₂, hkind₂.trans hkind₁, fun hkind => ?_⟩
    rw [hsame₂ (hkind₁ ▸ hkind), hsame₁ hkind]

/-- After any definitions with any names and numbers, the table holds those that were accepted and
nothing else, just as if the others had not been offered. What is offered next changes no kind and
no rule but a weighted one; it is refused for the known reasons only, and then nothing changes. -/
theorem after_registers (ds : List (Definition a)) :
    let g := empty.after ds
    Registers (empty.accepted ds) g ∧
    ofDefinitions (empty.accepted ds) = .ok g ∧
    (∀ more name r, g.rule? name = some r → ∃ r', (empty.after (ds ++ more)).rule? name = some r' ∧
      r'.kind = r.kind ∧ (r.kind ≠ .weighted → r' = r)) ∧
    ∀ d e, (g.define d = .error e ↔ g.Refuses d e) ∧
      (g.define d = .error e → empty.after (ds ++ [d]) = g) := by
  intro g
  have hmore : ∀ more, empty.after (ds ++ more) = g.after more := fun more => List.foldl_append
  refine ⟨empty_registers.after ds, foldlM_accepted empty ds, fun more name r hr => ?_,
    fun d e => ⟨define_eq_error, fun hd => ?_⟩⟩
  · rw [hmore]
    exact after_keeps hr more
  · rw [hmore]
    exact offer_of_error hd

end Grammar

end Espalier
