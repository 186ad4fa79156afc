import Comptime.Item
import Std.Data.TreeMap

/-! Rosters: handles numbered in the order in which they were added. -/
namespace Comptime

/-- The handles, the latest first, with an index of their numbers. -/
structure Roster where
  latest : List Handle := []
  index : Std.TreeMap Handle Nat := {}
  size_index : index.size = latest.length := by simp
  getElem?_index : ∀ h : Handle, index[h]? = latest.reverse.idxOf? h := by simp

namespace Roster

variable {r : Roster} {h k : Handle}

/-- The handles in order of their numbers. -/
def toList (r : Roster) : List Handle := r.latest.reverse

def size (r : Roster) : Nat := r.index.size

/-- The number of a handle. -/
def id? (r : Roster) (h : Handle) : Option Nat := r.index[h]?

theorem id?_eq : r.id? h = r.toList.idxOf? h := r.getElem?_index h

@[simp]
theorem length_toList : r.toList.length = r.size := by
  simp [toList, size, r.size_index]

theorem id?_eq_none_iff : r.id? h = none ↔ h ∉ r.toList := by
  simp [id?_eq]

theorem idxOf?_append_singleton {l : List Handle} (hl : h ∉ l) :
    (l ++ [h]).idxOf? k = if h = k then some l.length else l.idxOf? k := by
  induction l with
  | nil => simp [List.idxOf?_cons]
  | cons a l ih =>
    simp only [List.mem_cons, not_or] at hl
    simp only [List.cons_append, List.idxOf?_cons, ih hl.2]
    by_cases hk : h = k
    · subst k
      have : (a == h) = false := by simpa using fun e : a = h => hl.1 e.symm
      simp [this]
    · simp [hk]

/-- Gives the next number to a handle that has none. -/
def add (r : Roster) (h : Handle) : Roster :=
  if hn : r.id? h = none then
    { latest := h :: r.latest
      index := r.index.insert h r.size
      size_index := by
        have : h ∉ r.index := by simpa [id?] using hn
        simp [Std.TreeMap.size_insert, this, r.size_index]
      getElem?_index := fun k => by
        have hl : h ∉ r.latest.reverse := id?_eq_none_iff.mp hn
        rw [List.reverse_cons, idxOf?_append_singleton hl, Std.TreeMap.getElem?_insert,
          r.getElem?_index]
        simp [size, r.size_index] }
  else r

theorem toList_add :
    (r.add h).toList = if h ∈ r.toList then r.toList else r.toList ++ [h] := by
  unfold add
  split
  · rename_i hn
    rw [if_neg (id?_eq_none_iff.mp hn)]
    simp [toList]
  · rename_i hn
    rw [id?_eq_none_iff, Decidable.not_not] at hn
    rw [if_pos hn]

end Roster

end Comptime
