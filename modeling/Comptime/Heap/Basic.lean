import Comptime.Fault

/-! The objects of a unit, named by their handles. -/
namespace Comptime

structure Heap where
  objects : Array Object := #[]

namespace Heap

def size (heap : Heap) : Nat := heap.objects.size

def get? (heap : Heap) (h : Handle) : Option Object := heap.objects[h]?

/-- Stores a new object. Its handle is the old size. -/
def alloc (heap : Heap) (o : Object) : Heap := ⟨heap.objects.push o⟩

def set (heap : Heap) (h : Handle) (o : Object) : Heap := ⟨heap.objects.setIfInBounds h o⟩

/-- The object an item refers to. -/
def object? (heap : Heap) (item : Item) : Option Object := item.ref?.bind heap.get?

def type? (heap : Heap) (item : Item) : Option TypeValue :=
  match heap.object? item with
  | some (.type t) => some t
  | _ => none

def children (heap : Heap) (h : Handle) : List Child :=
  (heap.get? h).elim [] Object.children

/-- The items an object holds, in order. -/
def items (heap : Heap) (h : Handle) : List Item := (heap.children h).map Prod.snd

/-- The handles an object refers to, in order. -/
def refs (heap : Heap) (h : Handle) : List Handle := refsOf (heap.items h)

/-- Replaces the child at one place of an object. -/
def setChild (heap : Heap) (h : Handle) (place : Place) (x : Item) : Except Fault Heap :=
  match heap.get? h with
  | none => .error (.noPlace h place)
  | some o =>
    match o.setChild? x place, o, place with
    | some o, _, _ => .ok (heap.set h o)
    | none, .function _, .bodyItem i => .error (.noBodyItem h i)
    | none, _, _ => .error (.noPlace h place)

/-- Replaces the children of one object for which `f` has an answer, and counts them. -/
def replaceChildren (heap : Heap) (h : Handle) (f : Item → Option Item) : Heap × Nat :=
  match heap.get? h with
  | some o => (heap.set h (o.replaceChildren f).1, (o.replaceChildren f).2)
  | none => (heap, 0)

variable {heap : Heap} {h : Handle} {o : Object}

@[simp]
theorem size_alloc : (heap.alloc o).size = heap.size + 1 := by
  simp [size, alloc]

theorem get?_alloc : (heap.alloc o).get? h = if h = heap.size then some o else heap.get? h :=
  Array.getElem?_push

@[simp]
theorem size_set : (heap.set h o).size = heap.size := by
  simp [size, set]

theorem get?_set {k : Handle} :
    (heap.set h o).get? k = if h = k then (heap.get? h).map fun _ => o else heap.get? k := by
  simp only [get?, set, Array.getElem?_setIfInBounds]
  split
  · subst k
    split <;> simp_all
  · rfl

theorem items_of_get? (ho : heap.get? h = some o) : heap.items h = o.children.map Prod.snd := by
  simp [items, children, ho]

theorem get?_lt (ho : heap.get? h = some o) : h < heap.size :=
  (Array.getElem?_eq_some_iff.mp ho).1

end Heap

end Comptime
