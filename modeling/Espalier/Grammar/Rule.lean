import Espalier.Grammar.Build

/-!
# Rules

A grammar names rules of three kinds: a plain rule always runs its one body, a weighted rule runs
one of several, and a rule with a probability may run none. Names are unique, except that a weighted
rule takes further alternatives. A definition that is refused leaves no trace.
-/

namespace Espalier

/-- A rule body, for the depth and the point it runs at. If no access is named, it changes the scene
by edits alone, and so do the rules and grammars that are made of such bodies. -/
abbrev Body (a : Access := .edits) := (depth : Nat) → (place : Point Float32) → Build a Unit

structure Alternative (a : Access := .edits) where
  weight : Float
  body : Body a

/-- A rule of a grammar, of one of three kinds. -/
inductive Rule (a : Access := .edits) where
  | plain (body : Body a)
  | weighted (alternatives : List (Alternative a))
  | maybe (probability : Float) (body : Body a)

namespace Rule

variable {a : Access}

/-- The body to run for one application, if any, and the stream behind the choice. -/
def select (s : Stream) : Rule a → Option (Body a) × Stream
  | plain body => (some body, s)
  | weighted alternatives =>
    match s.pick (alternatives.map (·.weight)) with
    | (some i, s) => (alternatives[i]?.map (·.body), s)
    | (none, s) => (none, s)
  | maybe probability body => (if s.chance probability then some body else none, s.advance)

/-- The kind and the numbers of the rule. -/
def description : Rule a → String
  | plain _ => "Plain"
  | weighted alternatives =>
    "Weighted([" ++ ", ".intercalate (alternatives.map fun b => Layout.described.double b.weight) ++
      "])"
  | maybe probability _ =>
    "Maybe \x7b probability: " ++ Layout.described.double probability ++ " \x7d"

end Rule

structure Grammar (a : Access := .edits) where
  rules : List (String × Rule a)

/-- A rule, or an alternative of one, to add to a grammar. -/
inductive Definition (a : Access := .edits) where
  | plain (name : String) (body : Body a)
  | weighted (name : String) (weight : Float) (body : Body a)
  | maybe (name : String) (probability : Float) (body : Body a)

namespace Grammar

variable {a : Access}

def empty : Grammar a := ⟨[]⟩

def rule? (g : Grammar a) (name : String) : Option (Rule a) := g.rules.lookup name

def contains (g : Grammar a) (name : String) : Bool := (g.rule? name).isSome

def rulesByName (g : Grammar a) : List (String × Rule a) :=
  g.rules.mergeSort fun x y => x.1 ≤ y.1

def insert (g : Grammar a) (name : String) (r : Rule a) : Grammar a := ⟨g.rules ++ [(name, r)]⟩

/-- The grammar with another rule for a name that has one. -/
def replace (g : Grammar a) (name : String) (r : Rule a) : Grammar a :=
  ⟨g.rules.map fun (n, old) => (n, if n = name then r else old)⟩

def isProbability (p : Float) : Bool := (0 : Float) ≤ p && p ≤ 1

/-- Adds a definition. A number out of range is reported before a name that is taken. -/
def define (g : Grammar a) : Definition a → Except GrowthError (Grammar a)
  | .plain name body =>
    if g.contains name then .error (.duplicateRule name) else .ok (g.insert name (.plain body))
  | .weighted name weight body =>
    if !Stream.isUsable weight then .error (.invalidWeight name weight)
    else match g.rule? name with
      | some (.weighted alternatives) =>
        .ok (g.replace name (.weighted (alternatives ++ [⟨weight, body⟩])))
      | some _ => .error (.ruleKindConflict name)
      | none => .ok (g.insert name (.weighted [⟨weight, body⟩]))
  | .maybe name probability body =>
    if !isProbability probability then .error (.invalidProbability name probability)
    else if g.contains name then .error (.duplicateRule name)
    else .ok (g.insert name (.maybe probability body))

def ofDefinitions (ds : List (Definition a)) : Except GrowthError (Grammar a) :=
  ds.foldlM define empty

end Grammar

end Espalier
