import Comptime.Code.Offer
import Comptime.Heap.Basic

/-! Overwriting a child where it stands. -/
namespace Comptime

/-- The object after its child at a place was overwritten, and whether there was such a child. The
literals of a body are counted until the one that is meant is met. -/
def Object.overwrite (x : Item) (o : Object) (place : Place) : Bool × Object :=
  match o, place with
  | .function f, .bodyItem i =>
    let result := Stmt.offerAll (deliver i) f.body ⟨0, some x⟩
    (result.2.item.isNone, .function { f with body := result.1 })
  | o, place =>
    match o.setChild? x place with
    | some o' => (true, o')
    | none => (false, o)

/-- The fault of a place that an object does not have. -/
def Object.noChild (h : Handle) : Object → Place → Fault
  | .function _, .bodyItem i => .noBodyItem h i
  | _, place => .noPlace h place

/-- Overwrites the child at one place of an object. -/
def Heap.splice (heap : Heap) (h : Handle) (place : Place) (x : Item) : Except Fault Unit × Heap :=
  match heap.get? h with
  | none => (.error (.noPlace h place), heap)
  | some o =>
    let written := o.overwrite x place
    (if written.1 then .ok () else .error (o.noChild h place), heap.set h written.2)

end Comptime
