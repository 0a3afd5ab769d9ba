/-!
# Queues

First in, first out. The view is `toList`, oldest item first; taking and adding are described on it.
-/

namespace Espalier

/-- A queue, as the items to take next and, last first, those added since. -/
structure Queue (β : Type) where
  front : List β
  back : List β

namespace Queue

variable {β : Type}

def toList (q : Queue β) : List β := q.front ++ q.back.reverse

def single (x : β) : Queue β := ⟨[x], []⟩

def addAll (q : Queue β) (xs : List β) : Queue β := ⟨q.front, xs.reverse ++ q.back⟩

def take? (q : Queue β) : Option (β × Queue β) :=
  match q.front with
  | x :: front => some (x, ⟨front, q.back⟩)
  | [] =>
    match q.back.reverse with
    | x :: front => some (x, ⟨front, []⟩)
    | [] => none

@[simp] theorem toList_single (x : β) : (single x).toList = [x] := rfl

@[simp] theorem toList_addAll (q : Queue β) (xs : List β) :
    (q.addAll xs).toList = q.toList ++ xs := by
  simp [toList, addAll]

theorem toList_of_take? {q : Queue β} {x : β} {rest : Queue β} (h : q.take? = some (x, rest)) :
    q.toList = x :: rest.toList := by
  obtain ⟨front, back⟩ := q
  cases front with
  | cons y front =>
    simp only [take?, Option.some.injEq, Prod.mk.injEq] at h
    obtain ⟨rfl, rfl⟩ := h
    simp [toList]
  | nil =>
    cases hb : back.reverse with
    | nil => simp [take?, hb] at h
    | cons y front =>
      simp only [take?, hb, Option.some.injEq, Prod.mk.injEq] at h
      obtain ⟨rfl, rfl⟩ := h
      simp [toList, hb]

theorem take?_eq_none_iff {q : Queue β} : q.take? = none ↔ q.toList = [] := by
  obtain ⟨front, back⟩ := q
  cases front with
  | cons y front => simp [take?, toList]
  | nil => cases hb : back.reverse <;> simp [take?, toList, hb]

end Queue

end Espalier
