import Espalier.Config.Decode

/-!
# Configuration documents by their fields

A document changes some fields of a configuration. Each field has a name and a way to be read, and
one that is not named is as in the default. None of them has a say in another.

Main statement: `ofValue?_eq_some_iff`.
-/

namespace Espalier.Config

open Json (Value)

inductive Field where
  | seed
  | depth
  | rounds
  | candidates
  | maxTips
  | plant
  | guides
deriving DecidableEq

namespace Field

def name : Field → String
  | seed => "seed"
  | depth => "depth"
  | rounds => "rounds"
  | candidates => "candidates"
  | maxTips => "max_tips"
  | plant => "plant"
  | guides => "guides"

/-- What a field holds. -/
def Content : Field → Type
  | seed => UInt64
  | depth | rounds => UInt32
  | candidates | maxTips => Nat
  | plant => Profile
  | guides => List Guide

def get (c : Config) : (f : Field) → f.Content
  | seed => c.seed
  | depth => c.depth
  | rounds => c.rounds
  | candidates => c.candidates
  | maxTips => c.maxTips
  | plant => c.plant
  | guides => c.guides

/-- What a value is for a field. -/
def read? : (f : Field) → Value → Option f.Content
  | seed => Value.word64?
  | depth | rounds => Value.word32?
  | candidates | maxTips => Value.count? UInt64.size
  | plant => plant?
  | guides => Value.list? guide?

theorem name_injective : Function.Injective name := by
  intro f f' h
  cases f <;> cases f' <;> first | rfl | exact absurd h (by decide)

theorem mem_fieldNames_iff {s : String} : s ∈ fieldNames ↔ ∃ f : Field, f.name = s := by
  constructor
  · simp only [fieldNames, List.mem_cons, List.not_mem_nil, or_false]
    rintro (rfl | rfl | rfl | rfl | rfl | rfl | rfl)
    · exact ⟨seed, rfl⟩
    · exact ⟨depth, rfl⟩
    · exact ⟨rounds, rfl⟩
    · exact ⟨candidates, rfl⟩
    · exact ⟨maxTips, rfl⟩
    · exact ⟨plant, rfl⟩
    · exact ⟨guides, rfl⟩
  · rintro ⟨f, rfl⟩
    cases f <;> decide

end Field

/-- A value describes the configuration whose fields are what the value says, or as in the
default. -/
theorem ofValue?_eq_some_iff {v : Value} {c : Config} : ofValue? v = some c ↔
    ∃ fields, v.fields? fieldNames = some fields ∧
      ∀ f : Field, fields.getD? f.name f.read? (f.get default) = some (f.get c) := by
  simp only [ofValue?, bind, Option.bind_eq_some_iff, Option.some.injEq]
  constructor
  · rintro ⟨fields, hfields, _, h1, _, h2, _, h3, _, h4, _, h5, _, h6, _, h7, rfl⟩
    refine ⟨fields, hfields, fun f => ?_⟩
    cases f with
    | seed => exact h1
    | depth => exact h2
    | rounds => exact h3
    | candidates => exact h4
    | maxTips => exact h5
    | plant => exact h6
    | guides => exact h7
  · rintro ⟨fields, hfields, h⟩
    exact ⟨fields, hfields, _, h .seed, _, h .depth, _, h .rounds, _, h .candidates, _, h .maxTips,
      _, h .plant, _, h .guides, rfl⟩

end Espalier.Config
