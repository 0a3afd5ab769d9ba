import Espalier.Proofs.Grammar.Tending

/-!
# Grammars of definitions

A grammar that is made of definitions has a rule for every name that they define, and its rules run
no other bodies than theirs. So it tends its scene if the bodies of the definitions do.

Results:
1. `define_eq_add`, `ofDefinitions_eq`: what is accepted is added, one definition after the other.
2. `define_cases`: what an accepted definition does to the table of rules.
3. `add_adds`: what one definition adds to a grammar.
4. `ofDefinitions_tends`: a grammar tends if the bodies of its definitions do.
-/

namespace Espalier

namespace Definition

variable {a : Access}

def name : Definition a → String
  | .plain name _ | .weighted name _ _ | .maybe name _ _ => name

def body : Definition a → Body a
  | .plain _ body | .weighted _ _ body | .maybe _ _ body => body

/-- The rule that the definition makes for a name that has none. -/
def rule : Definition a → Rule a
  | .plain _ body => .plain body
  | .weighted _ weight body => .weighted [⟨weight, body⟩]
  | .maybe _ probability body => .maybe probability body

/-- The numbers of the definition can be used. -/
def InRange : Definition a → Prop
  | .plain _ _ => True
  | .weighted _ weight _ => weight.isFinite ∧ 0 < weight
  | .maybe _ probability _ => 0 ≤ probability ∧ probability ≤ 1

end Definition

theorem Grammar.isProbability_iff {p : Float} : isProbability p ↔ 0 ≤ p ∧ p ≤ 1 := by
  simp [isProbability]

namespace Grammar

variable {a : Access}

/-- The bodies of all rules. -/
def bodies (g : Grammar a) : List (Body a) := g.rules.flatMap fun (_, r) => r.bodies

variable {g g' : Grammar a} {name : String} {r : Rule a} {body : Body a} {d : Definition a}

theorem contains_iff : g.contains name ↔ ∃ r, (name, r) ∈ g.rules := by
  rw [contains, rule?, List.lookup_isSome_iff]
  constructor
  · rintro ⟨⟨n, r⟩, hmem, hname⟩
    exact ⟨r, (beq_iff_eq.mp hname : name = n) ▸ hmem⟩
  · rintro ⟨r, hmem⟩
    exact ⟨(name, r), hmem, beq_self_eq_true name⟩

theorem mem_bodies_of_rule? (h : g.rule? name = some r) (hbody : body ∈ r.bodies) :
    body ∈ g.bodies := by
  obtain ⟨before, after, hrules, -⟩ := List.lookup_eq_some_iff.mp h
  refine List.mem_flatMap.mpr ⟨(name, r), ?_, hbody⟩
  rw [hrules]
  exact List.mem_append_right _ List.mem_cons_self

/-! ## One definition more -/

theorem contains_insert {n : String} :
    (g.insert name r).contains n ↔ g.contains n ∨ n = name := by
  simp only [contains_iff, insert, List.mem_append, List.mem_singleton, Prod.mk.injEq,
    exists_or]
  simp

theorem contains_replace {n : String} : (g.replace name r).contains n ↔ g.contains n := by
  simp only [contains_iff, replace, List.mem_map, Prod.mk.injEq, Prod.exists]
  constructor
  · rintro ⟨_, _, old, hmem, rfl, -⟩
    exact ⟨old, hmem⟩
  · rintro ⟨old, hmem⟩
    exact ⟨_, n, old, hmem, rfl, rfl⟩

theorem mem_bodies_insert :
    body ∈ (g.insert name r).bodies ↔ body ∈ g.bodies ∨ body ∈ r.bodies := by
  simp [bodies, insert]

theorem mem_bodies_replace (h : body ∈ (g.replace name r).bodies) :
    body ∈ g.bodies ∨ body ∈ r.bodies := by
  obtain ⟨⟨n, new⟩, hmem, hbody⟩ := List.mem_flatMap.mp h
  obtain ⟨⟨n', old⟩, hold, heq⟩ := List.mem_map.mp hmem
  cases heq
  dsimp only at hbody
  split at hbody
  · exact .inr hbody
  · exact .inl (List.mem_flatMap.mpr ⟨(n, old), hold, hbody⟩)

theorem rule?_eq_none : g.rule? name = none ↔ ¬g.contains name := by
  simp [contains]

/-- What an accepted definition does: it makes a rule for a name that has none, or it is one more
alternative of a weighted rule. -/
theorem define_cases (h : g.define d = .ok g') : d.InRange ∧
    (g.rule? d.name = none ∧ g' = g.insert d.name d.rule ∨
      ∃ alternatives weight body, d = .weighted d.name weight body ∧
        g.rule? d.name = some (.weighted alternatives) ∧
        g' = g.replace d.name (.weighted (alternatives ++ [⟨weight, body⟩]))) := by
  cases d with
  | plain name body =>
    simp only [define] at h
    split at h
    · cases h
    next hfree =>
      exact ⟨trivial, .inl ⟨rule?_eq_none.mpr hfree, (Except.ok.inj h).symm⟩⟩
  | weighted name weight body =>
    simp only [define] at h
    split at h
    · cases h
    next husable =>
      have hrange := Stream.isUsable_iff.mp (by simpa using husable)
      split at h
      next alternatives hrule =>
        exact ⟨hrange, .inr ⟨alternatives, weight, body, rfl, hrule, (Except.ok.inj h).symm⟩⟩
      · cases h
      next hfree => exact ⟨hrange, .inl ⟨hfree, (Except.ok.inj h).symm⟩⟩
  | maybe name probability body =>
    simp only [define] at h
    split at h
    · cases h
    next hprobability =>
      split at h
      · cases h
      next hfree =>
        exact ⟨isProbability_iff.mp (by simpa using hprobability),
          .inl ⟨rule?_eq_none.mpr hfree, (Except.ok.inj h).symm⟩⟩

/-- The grammar with a definition that is not checked. -/
def add (g : Grammar a) : Definition a → Grammar a
  | .plain name body => g.insert name (.plain body)
  | .weighted name weight body =>
    match g.rule? name with
    | some (.weighted alternatives) =>
      g.replace name (.weighted (alternatives ++ [⟨weight, body⟩]))
    | _ => g.insert name (.weighted [⟨weight, body⟩])
  | .maybe name probability body => g.insert name (.maybe probability body)

/-- An accepted definition is added. -/
theorem define_eq_add (h : g.define d = .ok g') : g' = g.add d := by
  obtain ⟨-, ⟨hfree, rfl⟩ | ⟨alternatives, weight, body, hd, hheld, rfl⟩⟩ := define_cases h
  · cases d with
    | plain name body => rfl
    | weighted name weight body =>
      have hnone : g.rule? name = none := hfree
      rw [add, hnone]
      rfl
    | maybe name probability body => rfl
  · rw [hd, add, hheld]
    rfl

/-- A definition adds its name and its body, and nothing else. -/
theorem add_adds (g : Grammar a) (d : Definition a) :
    (∀ n, g.contains n → (g.add d).contains n) ∧ (g.add d).contains d.name ∧
      ∀ body ∈ (g.add d).bodies, body = d.body ∨ body ∈ g.bodies := by
  have hinsert : ∀ name r, (∀ body ∈ Rule.bodies r, body = d.body) → d.name = name →
      (∀ n, g.contains n → (g.insert name r).contains n) ∧ (g.insert name r).contains d.name ∧
        ∀ body ∈ (g.insert name r).bodies, body = d.body ∨ body ∈ g.bodies := by
    intro name r hr hname
    refine ⟨fun n hn => contains_insert.mpr (.inl hn), contains_insert.mpr (.inr hname),
      fun body hbody => ?_⟩
    rcases mem_bodies_insert.mp hbody with hbody | hbody
    · exact .inr hbody
    · exact .inl (hr body hbody)
  cases d with
  | plain name body => exact hinsert name _ (fun _ hb => List.mem_singleton.mp hb) rfl
  | weighted name weight body =>
    simp only [add]
    split
    next alternatives hrule =>
      refine ⟨fun n hn => contains_replace.mpr hn,
        contains_replace.mpr (Option.isSome_of_eq_some hrule), fun body' hbody => ?_⟩
      rcases mem_bodies_replace hbody with hbody | hbody
      · exact .inr hbody
      · rw [Rule.bodies, List.map_append, List.mem_append] at hbody
        rcases hbody with hbody | hbody
        · exact .inr (mem_bodies_of_rule? hrule hbody)
        · exact .inl (List.mem_singleton.mp hbody)
    · exact hinsert name _ (fun _ hb => List.mem_singleton.mp hb) rfl
  | maybe name probability body => exact hinsert name _ (fun _ hb => List.mem_singleton.mp hb) rfl

/-! ## Many definitions -/

theorem foldlM_define_eq {ds : List (Definition a)} (h : ds.foldlM define g = .ok g') :
    g' = ds.foldl add g := by
  induction ds generalizing g with
  | nil => exact (Except.ok.inj h).symm
  | cons d ds ih =>
    rw [List.foldlM_cons] at h
    cases hd : g.define d with
    | error e => rw [hd] at h; cases h
    | ok g₁ =>
      rw [hd] at h
      rw [List.foldl_cons, ← define_eq_add hd]
      exact ih h

/-- An accepted list of definitions is added, one after the other. -/
theorem ofDefinitions_eq {ds : List (Definition a)} (h : ofDefinitions ds = .ok g) :
    g = ds.foldl add empty :=
  foldlM_define_eq h

theorem foldl_add_adds (ds : List (Definition a)) (g : Grammar a) :
    (∀ n, g.contains n → (ds.foldl add g).contains n) ∧
      (∀ d ∈ ds, (ds.foldl add g).contains d.name) ∧
      ∀ body ∈ (ds.foldl add g).bodies, (∃ d ∈ ds, body = d.body) ∨ body ∈ g.bodies := by
  induction ds generalizing g with
  | nil => exact ⟨fun _ hn => hn, fun _ hd => (nomatch hd), fun _ hbody => .inr hbody⟩
  | cons d ds ih =>
    obtain ⟨hkeeps, hname, hbodies⟩ := add_adds g d
    obtain ⟨hkeeps', hnames, hbodies'⟩ := ih (g.add d)
    refine ⟨fun n hn => hkeeps' n (hkeeps n hn),
      List.forall_mem_cons.mpr ⟨hkeeps' _ hname, hnames⟩, fun body hbody => ?_⟩
    rcases hbodies' body hbody with ⟨d', hd', heq⟩ | hbody
    · exact .inl ⟨d', List.mem_cons_of_mem _ hd', heq⟩
    · rcases hbodies body hbody with heq | hbody
      · exact .inl ⟨d, List.mem_cons_self, heq⟩
      · exact .inr hbody

/-- A grammar knows what it defines. -/
theorem ofDefinitions_contains {ds : List (Definition a)} (h : ofDefinitions ds = .ok g) :
    ∀ d ∈ ds, g.contains d.name := by
  obtain ⟨-, hnames, -⟩ := foldl_add_adds ds empty
  rwa [← ofDefinitions_eq h] at hnames

/-- A grammar tends if the bodies of its definitions do. -/
theorem ofDefinitions_tends {g : Grammar} {ds : List Definition} (h : ofDefinitions ds = .ok g)
    (hds : ∀ d ∈ ds, Body.Tends g.contains d.body) : g.Tends := by
  intro name r hr body hbody
  obtain ⟨-, -, hbodies⟩ := foldl_add_adds ds empty
  rw [← ofDefinitions_eq h] at hbodies
  rcases hbodies body (mem_bodies_of_rule? hr hbody) with ⟨d, hd, rfl⟩ | hnone
  · exact hds d hd
  · cases hnone

end Grammar

end Espalier
