import Comptime.Emit.Companion

/-! The two modules of a program. -/
namespace Comptime

/-- The text of the emitted modules. -/
structure Modules where
  primary : String
  companion : String
  primaryFile : String
  companionFile : String
  /-- The number of patches in the companion. -/
  patches : Nat
  /-- The number of bindings in the companion. -/
  tracked : Nat

/-- Items as the primary module writes them. -/
def primaryOutput (heap : Heap) (tracker : Tracker) (names : Naming) : Output :=
  ⟨heap, tracker, names.imported⟩

/-- Items as the companion module writes them. -/
def companionOutput (heap : Heap) (tracker : Tracker) (names : Naming) : Output :=
  ⟨heap, tracker, names.binding⟩

section

variable {m : Type → Type} [Monad m]

/-- Bindings and patches as text, and the number of the patches. -/
def joinCompanion (companion : m (List String × List String)) : m (String × Nat) := do
  let (lines, patches) ← companion
  return ("\n".intercalate (lines ++ patches), patches.length)

/-- The two modules, with a writer for the program and the text of the companion. -/
def emitWith (program : Program) (tracker : Tracker) (names : Naming) (w : Writer m)
    (companion : m (String × Nat)) : m Modules := do
  let body ← renderProgram w program
  let intro :=
    if tracker.order.isEmpty then ""
    else "import * as " ++ names.importName ++ " from \"" ++ names.companion ++ "\";\n"
  let (companion, patches) ← companion
  return {
    primary := intro ++ body
    companion
    primaryFile := names.primary
    companionFile := names.companionFile
    patches
    tracked := tracker.size }

end

/-- The companion as text, and the number of its patches. -/
def companionText (heap : Heap) (tracker : Tracker) (names : Naming) :
    Except Fault (String × Nat) :=
  joinCompanion (companionOutput heap tracker names).companion

/-- Writes the program and every tracked object. -/
def emit (program : Program) (heap : Heap) (tracker : Tracker) (names : Naming) :
    Except Fault Modules :=
  emitWith program tracker names (primaryOutput heap tracker names).writer
    (companionText heap tracker names)

end Comptime
