namespace RealMode

/-!
# Worklists

A worklist hands out its items in the order they came in. New items are consed onto a
list of their own, which is turned around when the other one is used up, so that both
ends are cheap.

* `Worklist.toList` — the items, first to be handed out first;
* `toList_push`, `toList_of_pop?` — what the operations do to that list.
-/

/-- Items that are handed out in the order they came in. -/
structure Worklist (α : Type) where
  front : List α := []
  back : List α := []
deriving Repr

namespace Worklist

variable {α : Type}

/-- The items, first to be handed out first. -/
def toList (q : Worklist α) : List α := q.front ++ q.back.reverse

/-- The number of items. -/
def size (q : Worklist α) : Nat := q.front.length + q.back.length

/-- Adds an item at the end. -/
def push (q : Worklist α) (a : α) : Worklist α := { q with back := a :: q.back }

/-- Hands out the first item. -/
def pop? (q : Worklist α) : Option (α × Worklist α) :=
  match q.front with
  | a :: front => some (a, { q with front })
  | [] =>
    match q.back.reverse with
    | a :: front => some (a, ⟨front, []⟩)
    | [] => none

/-- A new item comes behind all others, although it is consed onto the front of a list. -/
@[simp] theorem toList_push (q : Worklist α) (a : α) : (q.push a).toList = q.toList ++ [a] := by
  simp [toList, push]

@[simp] theorem size_push (q : Worklist α) (a : α) : (q.push a).size = q.size + 1 := by
  simp only [size, push, List.length_cons]
  omega

/-- The size, which is counted without turning the list around, is the number of items. -/
theorem size_eq (q : Worklist α) : q.size = q.toList.length := by
  simp [size, toList]

/-- What is handed out is the head of the list, and the tail remains. -/
theorem toList_of_pop? {q r : Worklist α} {a : α} (h : q.pop? = some (a, r)) :
    q.toList = a :: r.toList := by
  obtain ⟨front, back⟩ := q
  cases front with
  | cons b front =>
    simp only [pop?, Option.some.injEq, Prod.mk.injEq] at h
    obtain ⟨rfl, rfl⟩ := h
    rfl
  | nil =>
    simp only [pop?] at h
    cases hb : back.reverse with
    | nil => simp [hb] at h
    | cons b front =>
      simp only [hb, Option.some.injEq, Prod.mk.injEq] at h
      obtain ⟨rfl, rfl⟩ := h
      simp [toList, hb]

/-- Nothing is handed out only if there is nothing left. -/
theorem toList_of_pop?_none {q : Worklist α} (h : q.pop? = none) : q.toList = [] := by
  obtain ⟨front, back⟩ := q
  cases front with
  | cons b front => simp [pop?] at h
  | nil =>
    simp only [pop?] at h
    cases hb : back.reverse with
    | nil => simp [toList, hb]
    | cons b front => simp [hb] at h

/-- An item handed out makes the worklist one smaller, so a worklist that gets no new items is used
    up. -/
theorem size_of_pop? {q r : Worklist α} {a : α} (h : q.pop? = some (a, r)) :
    q.size = r.size + 1 := by
  rw [size_eq, size_eq, toList_of_pop? h, List.length_cons]

end Worklist

end RealMode
