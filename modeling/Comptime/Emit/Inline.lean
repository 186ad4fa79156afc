import Comptime.Emit.Closure
import Comptime.Emit.Literal
import Comptime.Emit.Naming
import Comptime.Tracker

/-! Items as text in running code: primitives as literals, tracked objects by name, and other
sequences and functions in place. -/
namespace Comptime

/-- What there is to emit, and the name of each tracked object. -/
structure Output where
  heap : Heap
  tracker : Tracker
  name : Nat → String

section

variable {m : Type → Type} [Monad m] [MonadLiftT (Except Fault) m]

/-- A writer that uses `item` for items and leaves free identifiers alone. -/
def plainWriter (item : Item → m String) : Writer m where
  item := item
  free := pure
  comptime a := liftM (throw (.notLowered a) : Except Fault String)

namespace Output

variable (out : Output)

/-- Text of an item, with `expand` for the objects that have no name. -/
def spell (expand : Handle → m String) : Item → m String
  | .ref h =>
    match out.tracker.id? h with
    | some id => pure (out.name id)
    | none => expand h
  | x => return (← liftM x.literal).getD ""

/-- Text of an object in place, with `expand` for the objects inside it that have no name. -/
def expandWith (expand : Handle → m String) (h : Handle) : m String :=
  match out.heap.get? h with
  | some (.seq items) => do
    let parts ← items.mapM (out.spell expand)
    return "[" ++ commas parts ++ "]"
  | some (.function f) => f.render (plainWriter (out.spell expand))
  | o => liftM (throw (.notInline (o.elim "object" Object.kindName) h) : Except Fault String)

end Output

end

namespace Output

variable (out : Output)

/-- Text of an object in place, with at most `depth` objects inside each other. -/
def expandWithin : Nat → Handle → Except Fault String
  | 0, _ => throw .tooDeep
  | depth + 1, h => out.expandWith (expandWithin depth) h

/-- As many objects as there are can stand inside each other; one more would be a repetition. -/
def depth : Nat := out.heap.size + 1

/-- Text that evaluates to the item. -/
def inline (item : Item) : Except Fault String := out.spell (out.expandWithin out.depth) item

/-- Writes the items of running code. -/
def writer : Writer (Except Fault) := plainWriter out.inline

end Output

end Comptime
