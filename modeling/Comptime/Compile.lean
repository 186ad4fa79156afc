import Comptime.Code.Lower
import Comptime.Code.Offer
import Comptime.Context.Settle
import Comptime.Emit.Modules
import Comptime.Heap.Reach
import Comptime.Options
import Comptime.Qualify
import Comptime.Stage

/-! Compilation of one unit: its slots are resolved, the objects it needs are tracked, and the
modules are written. -/
namespace Comptime

/-- A unit as it is handed in. -/
structure Draft where
  name : String
  heap : Heap := {}
  groups : List Group := []
  vars : List (VarId × Binding) := []
  program : Program := []

/-- A unit whose program holds known items only. -/
structure Resolved where
  name : String
  heap : Heap
  program : Program

/-- A unit with a binding for every object that needs one. -/
structure Tracked where
  name : String
  heap : Heap
  program : Program
  tracker : Tracker

/-- The result of a stage, with the diagnostics of its success or its failure. -/
def Stage.ofFallible {α β : Type} (name : String) (run : α → Except Fault (β × List Diagnostic)) :
    Stage α β where
  name := name
  run a log :=
    match run a with
    | .ok (b, ds) => (.ok b, ds.foldl Log.push log)
    | .error e => (.error (.ofReport name e.report), log.push (.ofReport e.report))

/-- Every item the program reaches must be known. -/
def checkKnown (heap : Heap) (roots : List Item) : Except Fault Unit :=
  let items := roots ++ (heap.reachable roots).flatMap heap.items
  match validate items with
  | .resolved () => .ok ()
  | .failed e => .error e
  | .pending => .error (.neverResolved ((items.find? Item.isUnknown).getD .undefined))

/-- Settles an item that is offered, and keeps the first fault. -/
def Chain.settleOffered (chain : Chain) (item : Item) : StateM (Option Fault) (Option Item) :=
  fun failure =>
    match chain.settle item with
    | .ok answer => (answer, failure)
    | .error e => (none, failure.or (some e))

/-- Settles the literal items of a program. -/
def settleProgram (chain : Chain) (program : Program) : Except Fault Program :=
  match Stmt.offerAll chain.settleOffered program none with
  | (_, some e) => .error e
  | (p, none) => .ok p

namespace Draft

def frame (d : Draft) : Frame :=
  d.vars.foldl (fun f b => f.declare b.1 b.2) (d.groups.foldl Frame.addGroup {})

/-- Resolves every slot, lowers the program and settles what it reaches. -/
def resolve (d : Draft) : Except Fault (Resolved × List Diagnostic) := do
  let (sweeps, world) := World.resolve ⟨{ frame := d.frame }, d.heap⟩
  let sweeps ← sweeps
  let chain := world.chain
  let program ← match lowerProgram chain d.program with
    | (_, some e) => throw e
    | (p, none) => pure p
  let program ← settleProgram chain program
  let roots := world.context.frame.items ++ Stmt.itemsAll program
  let (installed, heap) := chain.install roots world.heap
  let installed ← installed
  checkKnown heap (Stmt.itemsAll program)
  let note := d.name ++ ": resolved in " ++ toString sweeps ++ " sweeps, " ++ toString installed ++
    " placeholders installed"
  return (⟨d.name, heap, program⟩, [⟨.info, note, none⟩])

end Draft

namespace Resolved

/-- Tracks what the program refers to. -/
def track (r : Resolved) : Tracked × List Diagnostic :=
  let roots := (Stmt.itemsAll r.program).foldl (Tracker.addRoot r.heap) {}
  let tracker := roots.close r.heap
  let note := r.name ++ ": " ++ toString tracker.size ++ " tracked items"
  (⟨r.name, r.heap, r.program, tracker⟩, [⟨.info, note, none⟩])

end Resolved

namespace Tracked

def emit (t : Tracked) (names : Naming) : Except Fault (Modules × List Diagnostic) := do
  let modules ← Comptime.emit t.program t.heap t.tracker names
  let note := t.name ++ ": " ++ toString modules.patches ++
    " cyclic references patched after declaration"
  return (modules, if modules.patches > 0 then [⟨.info, note, none⟩] else [])

end Tracked

def resolveStage : Stage Draft Resolved := .ofFallible "resolve" Draft.resolve

def trackStage : Stage Resolved Tracked := .ofFallible "aggregate" fun r => .ok r.track

def emitStage (names : Naming) : Stage Tracked Modules := .ofFallible "emit" (·.emit names)

/-- Compiles a unit into its two modules. -/
def compile (d : Draft) (options : Options) : Except StageError Modules :=
  let run := ((Pipeline.start.andThen resolveStage).andThen trackStage).andThen
    (emitStage options.naming)
  (run options.verbose d {}).1

end Comptime
