import Comptime.Heap.Basic

/-! Visits: the children of an object are offered to a visitor with effects of its own. -/
namespace Comptime.Heap

variable {m : Type → Type} [Monad m]

/-- Offers the given children of an object to the visitor, in order. An answer replaces the child at
its place. A place that cannot be set ends the visit, and what was replaced before stays. Counts the
answers. -/
def visitFrom (h : Handle) (visitor : Child → m (Option Item)) :
    List Child → Nat → Heap → m (Except Fault Nat × Heap)
  | [], n, heap => return (.ok n, heap)
  | c :: cs, n, heap => do
    match ← visitor c with
    | none => visitFrom h visitor cs n heap
    | some x =>
      match heap.setChild h c.1 x with
      | .ok heap => visitFrom h visitor cs (n + 1) heap
      | .error e => return (.error e, heap)

/-- Offers the children that an object has at the start to the visitor. -/
def visitChildren (heap : Heap) (h : Handle) (visitor : Child → m (Option Item)) :
    m (Except Fault Nat × Heap) :=
  visitFrom h visitor (heap.children h) 0 heap

end Comptime.Heap
