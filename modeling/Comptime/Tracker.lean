import Comptime.Heap.Basic
import Comptime.Queue
import Comptime.Roster
import Comptime.Unvisited

/-! Tracking decides which objects get a binding of their own. Anchors, features, records and types
always do. Sequences and functions are written in place unless they are referred to twice, so that
sharing and cycles survive. -/
namespace Comptime

structure Tracker where
  /-- The tracked handles with their ids. -/
  roster : Roster := {}
  /-- The objects that can be written in place and have been referred to. -/
  noted : HandleSet := {}
  /-- The objects whose own references have been noted. -/
  expanded : HandleSet := {}
  /-- The objects still to be expanded. -/
  queue : Queue Handle := {}

namespace Tracker

/-- The tracked handles; the position of a handle is its id. -/
def order (t : Tracker) : List Handle := t.roster.toList

def id? (t : Tracker) (h : Handle) : Option Nat := t.roster.id? h

def isTracked (t : Tracker) (h : Handle) : Bool := (t.id? h).isSome

def size (t : Tracker) : Nat := t.roster.size

def enqueue (t : Tracker) (h : Handle) : Tracker :=
  if h ∈ t.expanded then t else { t with queue := t.queue.push h }

/-- Tracks an object. One that is tracked already keeps its id. -/
def add (t : Tracker) (h : Handle) : Tracker :=
  if t.isTracked h then t else { t with roster := t.roster.add h }.enqueue h

/-- Notes a reference to an object. -/
def refer (heap : Heap) (t : Tracker) (h : Handle) : Tracker :=
  if (heap.get? h).any Object.isInlinable then
    if h ∈ t.noted then t.add h else { t with noted := t.noted.insert h }.enqueue h
  else t.add h

/-- Notes a reference from outside the heap. -/
def addRoot (heap : Heap) (t : Tracker) (item : Item) : Tracker :=
  item.ref?.elim t (t.refer heap)

def addItems (t : Tracker) (items : List Item) : Tracker :=
  (refsOf items).foldl add t

def expand (heap : Heap) (t : Tracker) (h : Handle) : Tracker :=
  (heap.refs h).foldl (refer heap) { t with expanded := t.expanded.insert h }

section Termination

variable {heap : Heap} {t : Tracker} {h : Handle}

@[simp]
theorem expanded_enqueue : (t.enqueue h).expanded = t.expanded := by
  unfold enqueue
  split <;> rfl

@[simp]
theorem expanded_add : (t.add h).expanded = t.expanded := by
  unfold add
  split <;> simp

@[simp]
theorem expanded_refer : (t.refer heap h).expanded = t.expanded := by
  unfold refer
  split
  · split <;> simp
  · simp

theorem expanded_expand : (t.expand heap h).expanded = t.expanded.insert h := by
  have (hs : List Handle) (t : Tracker) : (hs.foldl (refer heap) t).expanded = t.expanded := by
    induction hs generalizing t with
    | nil => rfl
    | cons h hs ih => simp [ih]
  exact this ..

end Termination

/-- Expands what is in the queue, and what that brings into it, until the queue is empty. -/
def close (heap : Heap) (t : Tracker) : Tracker :=
  match _hq : t.queue.pop? with
  | none => t
  | some (h, rest) =>
    if h < heap.size ∧ h ∉ t.expanded then close heap ({ t with queue := rest }.expand heap h)
    else close heap { t with queue := rest }
termination_by (unseen heap.size t.expanded, t.queue.toList.length)
decreasing_by
  · rename_i hn
    rw [Prod.lex_def, expanded_expand]
    exact Or.inl (unseen_insert_lt hn.1 hn.2)
  · simp [Prod.lex_def, Queue.toList_eq_cons_of_pop? _hq]

end Tracker

end Comptime
