import Comptime.Emit.Modules

/-! Writing the modules into a new directory. -/
namespace Comptime

/-- A place for a file: so many directories above the new one, and the name there. -/
structure FilePlace where
  above : Nat
  name : String
deriving DecidableEq

/-- The parts of a path that lead somewhere. -/
def pathParts (path : String) : List String :=
  (path.splitOn "/").dropWhile fun part => part == "" || part == "."

/-- A name a file can have. -/
def isFileName (name : String) : Bool :=
  name != "" && name != "." && name != ".." && name.utf8ByteSize ≤ 255 && !name.contains '\x00'

/-- How many bytes a path relative to the new directory may have. A whole path has at most 4095, and
32 of them are kept for the way to the directory. -/
def pathLimit : Nat := 4095 - 32

/-- Where a path relative to the new directory leads. The directory has no subdirectories, a file
needs a name, and every part of the path counts towards its length, also one that leads nowhere. -/
def filePlace? (path : String) : Option FilePlace :=
  let parts := path.splitOn "/"
  let name := parts.getLastD ""
  let above := parts.dropLast
  if path.startsWith "/" || pathLimit < path.utf8ByteSize || !isFileName name ||
      above.any (fun part => part != "" && part != "." && part != "..") then none
  else some ⟨above.count "..", name⟩

/-- The files after both modules are written: each path as seen from the directory, with the text
found there. A second module at the same place replaces the first. -/
def Modules.write? (m : Modules) : Option (List (String × String)) := do
  let first ← filePlace? m.primaryFile
  let second ← filePlace? m.companionFile
  let shown (path : String) := "/".intercalate (pathParts path)
  return [(shown m.primaryFile, if first = second then m.companion else m.primary),
    (shown m.companionFile, m.companion)]

end Comptime
