import Espalier.Proofs.CommandLine.Numeral
import Mathlib.Data.List.Nodup
import Mathlib.Data.List.Perm.Basic

/-!
# Flags

Each flag is looked for on its own in the same list of arguments. It takes the argument behind its
first occurrence, whatever that argument is, so the same text may be the value of one flag and the
occurrence of another. In a list of settings, where no value reads as a flag, this does not happen:
each flag finds the value it was given, in whatever order the settings come.

Results:
1. `value?_eq_none`, `value?_eq_some`, `value?_configOnly`: how the search for a flag ends.
2. `CountFlag.replaces_iff`: what a flag with a number does to the field that it overrides.
3. `value?_settings`, `value?_perm`: what a flag finds in a list of settings, and that their order
   does not matter.
-/

namespace Espalier.CommandLine

/-! ## Configuration errors -/

/-- A computation that can only fail with a configuration error. -/
def ConfigOnly {β : Type} (x : Except GrowthError β) : Prop :=
  ∀ e, x = .error e → ∃ cause, e = .config cause

theorem configOnly_ok {β : Type} (value : β) : ConfigOnly (.ok value) := nofun

theorem configOnly_error {β : Type} (cause : ConfigCause) :
    ConfigOnly (.error (.config cause) : Except GrowthError β) := by
  intro e h
  cases h
  exact ⟨cause, rfl⟩

theorem ConfigOnly.bind {β γ : Type} {x : Except GrowthError β} {f : β → Except GrowthError γ}
    (hx : ConfigOnly x) (hf : ∀ value, ConfigOnly (f value)) : ConfigOnly (x >>= f) := by
  intro e h
  cases x with
  | error e' =>
    cases h
    exact hx e rfl
  | ok value => exact hf value e h

theorem bind_eq_ok {ε β γ : Type} {x : Except ε β} {f : β → Except ε γ} {result : γ} :
    (x >>= f) = .ok result ↔ ∃ value, x = .ok value ∧ f value = .ok result := by
  cases x with
  | error e => exact ⟨nofun, nofun⟩
  | ok value =>
    constructor
    · intro h
      exact ⟨value, rfl, h⟩
    · rintro ⟨_, hvalue, h⟩
      cases hvalue
      exact h

/-! ## The value of a flag -/

/-- The value stands behind the first occurrence of the flag. -/
def ValueOf (args : List String) (flag value : String) : Prop :=
  ∃ before after, args = before ++ flag :: value :: after ∧ flag ∉ before

section Search

variable {args before : List String} {flag value : String}

theorem value?_cons (arg : String) (args : List String) (flag : String) :
    value? (arg :: args) flag =
      if arg = flag then
        match args with
        | [] => .error (.config (.missingValue flag))
        | value :: _ => .ok (some value)
      else value? args flag := by
  unfold value?
  rw [List.dropWhile_cons]
  by_cases h : arg = flag
  · cases args <;> simp [h]
  · simp [h]

theorem value?_append (h : flag ∉ before) :
    value? (before ++ args) flag = value? args flag := by
  induction before with
  | nil => rfl
  | cons arg before ih =>
    obtain ⟨hne, hrest⟩ := List.ne_and_not_mem_of_not_mem_cons h
    rw [List.cons_append, value?_cons, if_neg (Ne.symm hne), ih hrest]

theorem value?_eq_none : value? args flag = .ok none ↔ flag ∉ args := by
  induction args with
  | nil => simp [value?]
  | cons arg args ih =>
    rw [value?_cons]
    by_cases h : arg = flag
    · cases args <;> simp [h]
    · simp [h, ih, Ne.symm h]

theorem value?_eq_some : value? args flag = .ok (some value) ↔ ValueOf args flag value := by
  constructor
  · intro h
    induction args with
    | nil => cases h
    | cons arg args ih =>
      rw [value?_cons] at h
      split at h
      next heq =>
        cases args with
        | nil => cases h
        | cons _ after =>
          cases h
          exact ⟨[], after, by rw [heq]; rfl, List.not_mem_nil⟩
      next hne =>
        obtain ⟨before, after, rfl, hbefore⟩ := ih h
        exact ⟨arg :: before, after, rfl, List.not_mem_cons_of_ne_of_not_mem (Ne.symm hne) hbefore⟩
  · rintro ⟨before, after, rfl, hbefore⟩
    rw [value?_append hbefore, value?_cons, if_pos rfl]

theorem value?_configOnly (args : List String) (flag : String) :
    ConfigOnly (value? args flag) := by
  unfold value?
  split
  · exact configOnly_ok _
  · exact configOnly_error _
  · exact configOnly_ok _

/-! ## Flags with a number -/

theorem number?_configOnly (args : List String) (flag : String) (bound : Nat) :
    ConfigOnly (number? args flag bound) := by
  refine (value?_configOnly args flag).bind fun value => ?_
  cases value with
  | none => exact configOnly_ok _
  | some text =>
    dsimp only
    split
    · exact configOnly_ok _
    · exact configOnly_error _

/-- The search for a number ends well without the flag, or with a numeral behind it. -/
theorem number?_eq_ok {bound : Nat} {n? : Option Nat} :
    number? args flag bound = .ok n? ↔
      flag ∉ args ∧ n? = none ∨
        ∃ text n, ValueOf args flag text ∧ Numeral bound text n ∧ n? = some n := by
  unfold number?
  rw [bind_eq_ok]
  constructor
  · rintro ⟨value, hvalue, h⟩
    cases value with
    | none =>
      cases h
      exact .inl ⟨value?_eq_none.mp hvalue, rfl⟩
    | some text =>
      dsimp only at h
      split at h
      next n hn =>
        cases h
        exact .inr ⟨text, n, value?_eq_some.mp hvalue, count?_eq_some.mp hn, rfl⟩
      · cases h
  · rintro (⟨habsent, rfl⟩ | ⟨text, n, hvalue, hn, rfl⟩)
    · exact ⟨none, value?_eq_none.mpr habsent, rfl⟩
    · exact ⟨some text, value?_eq_some.mpr hvalue, by simp only [count?_eq_some.mpr hn]; rfl⟩

end Search

/-- The flags that take a number. -/
inductive CountFlag where
  | seed
  | depth
  | candidates
  | rounds
deriving DecidableEq

namespace CountFlag

def name : CountFlag → String
  | seed => "--seed"
  | depth => "--depth"
  | candidates => "--candidates"
  | rounds => "--rounds"

/-- What the number has to be below. -/
def bound : CountFlag → Nat
  | seed | candidates => UInt64.size
  | depth | rounds => UInt32.size

variable {args : List String}

/-- The number behind the flag takes the place of the old one, or the flag does not occur. -/
def Replaces (f : CountFlag) (args : List String) (old new : Nat) : Prop :=
  f.name ∉ args ∧ new = old ∨ ∃ text, ValueOf args f.name text ∧ Numeral f.bound text new

/-- The flag occurs, but no numeral of the right size stands behind its first occurrence. -/
def Malformed (f : CountFlag) (args : List String) : Prop :=
  f.name ∈ args ∧ ∀ text n, ValueOf args f.name text → ¬ Numeral f.bound text n

theorem Malformed.not_replaces {f : CountFlag} {old new : Nat} (h : f.Malformed args) :
    ¬ f.Replaces args old new := by
  rintro (⟨habsent, -⟩ | ⟨text, hvalue, hnew⟩)
  · exact habsent h.1
  · exact h.2 text new hvalue hnew

/-- A field of any type of numbers is overridden as its number is. -/
theorem replaces_iff {β : Type} {toNat : β → Nat} {ofNat : Nat → β} {f : CountFlag}
    (hinj : Function.Injective toNat) (hofNat : ∀ n, n < f.bound → toNat (ofNat n) = n)
    {old new : β} :
    f.Replaces args (toNat old) (toNat new) ↔
      ∃ n?, number? args f.name f.bound = .ok n? ∧ new = (n?.map ofNat).getD old := by
  constructor
  · rintro (⟨habsent, hnew⟩ | ⟨text, hvalue, hnew⟩)
    · exact ⟨none, number?_eq_ok.mpr (.inl ⟨habsent, rfl⟩), hinj hnew⟩
    · refine ⟨some (toNat new), number?_eq_ok.mpr (.inr ⟨text, _, hvalue, hnew, rfl⟩), ?_⟩
      exact (hinj (hofNat _ hnew.1)).symm
  · rintro ⟨n?, hnumber, rfl⟩
    rcases number?_eq_ok.mp hnumber with ⟨habsent, rfl⟩ | ⟨text, n, hvalue, hn, rfl⟩
    · exact .inl ⟨habsent, rfl⟩
    · exact .inr ⟨text, hvalue, (hofNat n hn.1).symm ▸ hn⟩

end CountFlag

/-! ## Settings -/

/-- The flags that take a value. -/
inductive ValueFlag where
  | config
  | count (f : CountFlag)
deriving DecidableEq

def ValueFlag.name : ValueFlag → String
  | config => "--config"
  | count f => f.name

/-- A flag with what belongs to it. -/
inductive Setting where
  | value (flag : ValueFlag) (text : String)
  | bones

namespace Setting

def name : Setting → String
  | value flag _ => flag.name
  | bones => "--bones"

/-- The arguments that make the setting. -/
def args : Setting → List String
  | value flag text => [flag.name, text]
  | bones => ["--bones"]

/-- The value that the setting gives to a flag. -/
def valueOf? (flag : ValueFlag) : Setting → Option String
  | value flag' text => if flag' = flag then some text else none
  | bones => none

theorem valueOf?_eq_some {flag : ValueFlag} {s : Setting} {text : String} :
    s.valueOf? flag = some text ↔ s = value flag text := by
  cases s with
  | bones => simp [valueOf?]
  | value flag' text' => simp [valueOf?]

end Setting

/-- The names of all flags. -/
def flagNames : List String :=
  ["--config", "--seed", "--depth", "--candidates", "--rounds", "--bones"]

namespace ValueFlag

theorem name_injective : Function.Injective name := by
  rintro (_ | ⟨⟨⟩⟩) (_ | ⟨⟨⟩⟩) h <;> first | rfl | exact absurd h (by decide)

theorem name_mem (flag : ValueFlag) : flag.name ∈ flagNames := by
  rcases flag with _ | ⟨⟨⟩⟩ <;> decide

theorem name_ne_bones (flag : ValueFlag) : flag.name ≠ "--bones" := by
  rcases flag with _ | ⟨⟨⟩⟩ <;> decide

end ValueFlag

/-- Each flag is set at most once, and no value reads as a flag. -/
structure Orderly (settings : List Setting) : Prop where
  distinct : (settings.map Setting.name).Nodup
  plain : ∀ flag text, Setting.value flag text ∈ settings → text ∉ flagNames

variable {settings settings' : List Setting}

/-- Where no value reads as a flag, a flag finds the value of its first setting. -/
theorem value?_settings (hplain : ∀ flag text, Setting.value flag text ∈ settings →
    text ∉ flagNames) (flag : ValueFlag) :
    value? (settings.flatMap Setting.args) flag.name =
      .ok (settings.findSome? (·.valueOf? flag)) := by
  induction settings with
  | nil => rfl
  | cons s settings ih =>
    have hrest := ih fun flag text hmem => hplain flag text (List.mem_cons_of_mem _ hmem)
    rw [List.flatMap_cons, List.findSome?_cons]
    cases s with
    | bones =>
      show value? ("--bones" :: settings.flatMap Setting.args) flag.name = _
      rw [value?_cons, if_neg flag.name_ne_bones.symm, hrest]
      rfl
    | value flag' text =>
      show value? (flag'.name :: text :: settings.flatMap Setting.args) flag.name = _
      rw [value?_cons]
      by_cases heq : flag' = flag
      · simp [heq, Setting.valueOf?]
      · have htext : text ≠ flag.name := by
          rintro rfl
          exact hplain flag' _ List.mem_cons_self flag.name_mem
        rw [if_neg (ValueFlag.name_injective.ne heq), value?_cons, if_neg htext, hrest]
        simp [heq, Setting.valueOf?]

theorem Orderly.valueOf?_eq_some (h : Orderly settings) {flag : ValueFlag} {text : String} :
    settings.findSome? (·.valueOf? flag) = some text ↔ .value flag text ∈ settings := by
  constructor
  · intro hfind
    obtain ⟨s, hs, hvalue⟩ := List.exists_of_findSome?_eq_some hfind
    rwa [Setting.valueOf?_eq_some.mp hvalue] at hs
  · intro hmem
    cases hfind : settings.findSome? (·.valueOf? flag) with
    | none =>
      have hnone := List.findSome?_eq_none_iff.mp hfind _ hmem
      rw [Setting.valueOf?_eq_some.mpr rfl] at hnone
      cases hnone
    | some text' =>
      obtain ⟨s, hs, hvalue⟩ := List.exists_of_findSome?_eq_some hfind
      rw [Setting.valueOf?_eq_some] at hvalue
      have hsame : s = .value flag text :=
        List.inj_on_of_nodup_map h.distinct hs hmem (by rw [hvalue]; rfl)
      rw [hvalue] at hsame
      cases hsame
      rfl

theorem Orderly.perm (h : Orderly settings) (hperm : settings.Perm settings') :
    Orderly settings' where
  distinct := (hperm.map _).nodup_iff.mp h.distinct
  plain flag text hmem := h.plain flag text (hperm.mem_iff.mpr hmem)

/-- The order of the settings does not matter to a flag. -/
theorem value?_perm (h : Orderly settings) (hperm : settings.Perm settings') (flag : ValueFlag) :
    value? (settings.flatMap Setting.args) flag.name =
      value? (settings'.flatMap Setting.args) flag.name := by
  rw [value?_settings h.plain, value?_settings (h.perm hperm).plain]
  refine congrArg Except.ok (Option.ext fun text => ?_)
  rw [h.valueOf?_eq_some, (h.perm hperm).valueOf?_eq_some, hperm.mem_iff]

example : value? ["grow", "--seed", "17", "--bones"] "--seed" = .ok (some "17") := by rfl

end Espalier.CommandLine
