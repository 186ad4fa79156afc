/-! Names of the emitted bindings and modules. -/
namespace Comptime

structure Naming where
  /-- Tracked object `n` is exported as this followed by `n`. -/
  stem : String := "item"
  /-- The name under which the primary module imports the companion. -/
  importName : String := "__items"
  /-- How the primary module refers to the companion. -/
  companion : String := "./items.js"
  /-- The file of the primary module. -/
  primary : String := "main.js"
deriving DecidableEq

namespace Naming

def binding (n : Naming) (id : Nat) : String := n.stem ++ toString id

/-- A binding as the primary module sees it. -/
def imported (n : Naming) (id : Nat) : String := n.importName ++ "." ++ n.binding id

/-- The file of the companion module: its reference without one leading `./`. -/
def companionFile (n : Naming) : String :=
  match n.companion.toList with
  | '.' :: '/' :: rest => String.ofList rest
  | _ => n.companion

end Naming

end Comptime
