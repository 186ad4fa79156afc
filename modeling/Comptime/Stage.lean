import Comptime.Diagnostic

/-! Pipelines: stages run one after the other, each on the result of the one before. -/
namespace Comptime

structure StageError where
  stage : String
  category : String
  message : String

namespace StageError

/-- A failure that has no fault behind it. -/
def ofMessage (stage message : String) : StageError := ⟨stage, "internal", message⟩

def ofReport (stage : String) (r : Report) : StageError := ⟨stage, r.category, r.summary⟩

def text (e : StageError) : String := "[" ++ e.stage ++ "] " ++ e.category ++ ": " ++ e.message

end StageError

/-- The diagnostics held back, and the lines shown so far. -/
structure Log where
  held : List Diagnostic := []
  shown : List String := []

namespace Log

def push (log : Log) (d : Diagnostic) : Log := { log with held := log.held ++ [d] }

/-- Shows what is held, in the name of a stage. -/
def flush (log : Log) (stage : String) (verbose : Bool) : Log where
  held := []
  shown := log.shown ++ log.held.filterMap (·.render? stage .pretty verbose)

end Log

structure Stage (α β : Type) where
  name : String
  run : α → Log → Except StageError β × Log

/-- A run of stages. The flag says whether information is shown. -/
abbrev Pipeline (α β : Type) := Bool → α → Log → Except StageError β × Log

namespace Pipeline

variable {α β γ : Type}

def start : Pipeline α α := fun _ a log => (.ok a, log)

/-- Adds a stage at the end. Its diagnostics are shown when it is over, and its failures carry its
name. -/
def andThen (p : Pipeline α β) (s : Stage β γ) : Pipeline α γ := fun verbose a log =>
  match p verbose a log with
  | (.error e, log) => (.error e, log)
  | (.ok b, log) =>
    match s.run b log with
    | (.error e, log) => (.error { e with stage := s.name }, log.flush s.name verbose)
    | (.ok c, log) => (.ok c, log.flush s.name verbose)

end Pipeline

end Comptime
