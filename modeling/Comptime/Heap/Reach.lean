import Comptime.Heap.Basic
import Comptime.Unvisited

/-! The objects that can be reached from given items. -/
namespace Comptime.Heap

/-- Depth-first walk: takes the handles of the stack in turn, each followed by what it refers to,
and skips those already seen. -/
def walk (heap : Heap) : HandleSet → List Handle → List Handle
  | _, [] => []
  | seen, h :: stack =>
    if h < heap.size ∧ h ∉ seen then h :: walk heap (seen.insert h) (heap.refs h ++ stack)
    else walk heap seen stack
termination_by seen stack => (unseen heap.size seen, stack.length)
decreasing_by
  · rename_i hn
    exact Prod.Lex.left _ _ (unseen_insert_lt hn.1 hn.2)
  · simp [Prod.lex_def]

/-- Every object reachable from the roots, in order of discovery. -/
def reachable (heap : Heap) (roots : List Item) : List Handle :=
  heap.walk {} (refsOf roots)

end Comptime.Heap
