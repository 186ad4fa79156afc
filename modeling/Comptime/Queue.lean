/-! Queues: what came first leaves first. -/
namespace Comptime

/-- The front holds what leaves next, and the back what came last, latest first. -/
structure Queue (α : Type) where
  front : List α := []
  back : List α := []

namespace Queue

variable {α : Type} {q r : Queue α} {a : α}

/-- The content, in the order in which it leaves. -/
def toList (q : Queue α) : List α := q.front ++ q.back.reverse

def push (q : Queue α) (a : α) : Queue α := { q with back := a :: q.back }

/-- What leaves next, and the queue without it. -/
def pop? (q : Queue α) : Option (α × Queue α) :=
  match q.front with
  | a :: front => some (a, { q with front })
  | [] =>
    match q.back.reverse with
    | a :: front => some (a, ⟨front, []⟩)
    | [] => none

@[simp]
theorem toList_push : (q.push a).toList = q.toList ++ [a] := by
  simp [push, toList]

theorem toList_eq_cons_of_pop? (h : q.pop? = some (a, r)) : q.toList = a :: r.toList := by
  obtain ⟨front, back⟩ := q
  cases front with
  | cons b front =>
    cases h
    rfl
  | nil =>
    simp only [pop?] at h
    split at h
    · rename_i hb
      cases h
      simp [toList, hb]
    · cases h

theorem pop?_eq_none_iff : q.pop? = none ↔ q.toList = [] := by
  obtain ⟨front, back⟩ := q
  cases front with
  | cons b front => simp [pop?, toList]
  | nil =>
    simp only [pop?, toList, List.nil_append]
    split <;> simp_all

end Queue

end Comptime
