import Comptime.Fault

/-! Messages to the user. -/
namespace Comptime

inductive Level
  | info
  | error
deriving DecidableEq

/-- The layouts of a rendered diagnostic. -/
inductive Layout
  | pretty
  | plain
deriving DecidableEq

structure Diagnostic where
  level : Level
  message : String
  /-- The category of the fault behind the message. -/
  code : Option String := none

namespace Diagnostic

def ofReport (r : Report) : Diagnostic := ⟨.error, r.summary, some r.category⟩

def text (d : Diagnostic) : String :=
  match d.code with
  | some code => d.message ++ " [" ++ code ++ "]"
  | none => d.message

def levelName : Layout → Level → String
  | .plain, .error => "ERROR"
  | .plain, .info => "INFO"
  | .pretty, .error => "error"
  | .pretty, .info => "note"

/-- The line for a diagnostic. Information is shown only when it is asked for. -/
def render? (d : Diagnostic) (context : String) (layout : Layout) (verbose : Bool) :
    Option String :=
  if d.level = .info ∧ !verbose then none
  else
    let line := "[" ++ context ++ "] " ++ levelName layout d.level ++ ": " ++ d.message
    some (match d.code with
      | some code => line ++ " (" ++ code ++ ")"
      | none => line)

end Diagnostic

end Comptime
