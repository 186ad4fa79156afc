import Comptime.Emit.Naming
import Comptime.Text.Json

/-! Options of a compilation, and how they are read. -/
namespace Comptime

inductive LogFormat
  | pretty
  | json
deriving DecidableEq

structure Options where
  naming : Naming := {}
  /-- Whether informational diagnostics are shown. -/
  verbose : Bool := false
  logFormat : LogFormat := .pretty
deriving DecidableEq

namespace Options

open Text (Json JsonString)

def readNaming (j : Json) : Option Naming := do
  match ← j.fields? ["binding_prefix", "items_alias", "support_module", "primary_module"] with
  | [stem, importName, companion, primary] =>
    let base : Naming := {}
    return {
      stem := ← Json.field? Json.string? base.stem stem
      importName := ← Json.field? Json.string? base.importName importName
      companion := ← Json.field? Json.string? base.companion companion
      primary := ← Json.field? Json.string? base.primary primary }
  | _ => none

def readVerbose (j : Json) : Option Bool := do
  match ← j.fields? ["verbose"] with
  | [verbose] => Json.field? Json.bool? false verbose
  | _ => none

def logFormat? : String → Option LogFormat
  | "pretty" => some .pretty
  | "json" => some .json
  | _ => none

/-- A log format is its name, or an object with that name alone and no value. -/
def readLogFormat : Json → Option LogFormat
  | .string s => (JsonString.text? s).bind logFormat?
  | .object [(s, .null)] => (JsonString.text? s).bind logFormat?
  | _ => none

def ofJson? (j : Json) : Option Options := do
  match ← j.fields? ["emit", "debug", "log_format"] with
  | [naming, verbose, logFormat] =>
    return {
      naming := ← Json.field? readNaming {} naming
      verbose := ← Json.field? readVerbose false verbose
      logFormat := ← Json.field? readLogFormat .pretty logFormat }
  | _ => none

/-- Reads options. What is not given keeps its default. -/
def parse? (text : String) : Option Options := do ofJson? (← Json.parse? text)

end Options

end Comptime
