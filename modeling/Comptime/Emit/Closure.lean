import Comptime.Code.Render
import Comptime.Object

/-! Functions as text. A free identifier that was captured is written as the captured item. -/
namespace Comptime

variable {m : Type → Type}

/-- The writer inside a function with these captures. -/
def Writer.capturing (w : Writer m) (captures : Fields) : Writer m :=
  { w with
    free := fun name =>
      match captures.lookup name with
      | some x => w.item x
      | none => w.free name }

namespace Closure

/-- The names bound around the body of a function: its parameters, and its own name if it has
one. -/
def locals (f : Closure) : Scope :=
  if f.name = "" then f.params else f.params ++ [f.name]

def header (f : Closure) : String :=
  if f.name = "" then "function (" ++ commas f.params ++ ")"
  else "function " ++ f.name ++ "(" ++ commas f.params ++ ")"

def render [Monad m] (w : Writer m) (f : Closure) : m String := do
  let lines ← renderBlock (w.capturing f.captures) f.locals f.body
  if lines.isEmpty then return f.header ++ " \x7b\x7d"
  else return f.header ++ " \x7b " ++ " ".intercalate lines ++ " \x7d"

end Closure

end Comptime
