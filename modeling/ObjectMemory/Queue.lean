set_option autoImplicit false

/-!
# Queues

First in, first out.  A queue is two lists: the front in order and the back in reverse order; `toList`
is what it stands for.
-/

namespace ObjectMemory

/-- A first-in first-out queue. -/
structure Queue (α : Type) where
  front : List α
  back : List α
  deriving Repr, Inhabited

namespace Queue

variable {α : Type}

/-- The queue without elements. -/
def empty : Queue α := ⟨[], []⟩

/-- The elements, the oldest first. -/
def toList (q : Queue α) : List α := q.front ++ q.back.reverse

/-- Adds an element behind all others. -/
def push (q : Queue α) (a : α) : Queue α := ⟨q.front, a :: q.back⟩

/-- Takes the oldest element. -/
def pop? (q : Queue α) : Option (α × Queue α) :=
  match q.front with
  | a :: rest => some (a, ⟨rest, q.back⟩)
  | [] =>
    match q.back.reverse with
    | a :: rest => some (a, ⟨rest, []⟩)
    | [] => none

@[simp] theorem toList_empty : (empty : Queue α).toList = [] := rfl

@[simp] theorem toList_push (q : Queue α) (a : α) : (q.push a).toList = q.toList ++ [a] := by
  simp [toList, push]

theorem pop?_eq_none {q : Queue α} (h : q.pop? = none) : q.toList = [] := by
  unfold pop? at h
  split at h
  · cases h
  · rename_i hf
    split at h
    · cases h
    · rename_i hb
      simp [toList, hf, hb]

theorem pop?_eq_some {q q' : Queue α} {a : α} (h : q.pop? = some (a, q')) :
    q.toList = a :: q'.toList := by
  unfold pop? at h
  split at h
  · rename_i hf
    cases h
    simp [toList, hf]
  · rename_i hf
    split at h
    · rename_i hb
      cases h
      simp [toList, hf, hb]
    · cases h

end Queue

end ObjectMemory
