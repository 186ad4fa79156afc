import Comptime.Code.Basic
import Comptime.Code.Items
import Comptime.Code.Lower
import Comptime.Code.Offer
import Comptime.Code.Render
import Comptime.Compile
import Comptime.Context.Basic
import Comptime.Context.Settle
import Comptime.Diagnostic
import Comptime.Emit.Closure
import Comptime.Emit.Companion
import Comptime.Emit.Files
import Comptime.Emit.Inline
import Comptime.Emit.Literal
import Comptime.Emit.Modules
import Comptime.Emit.Naming
import Comptime.Eval
import Comptime.Expr
import Comptime.Fault
import Comptime.Heap.Basic
import Comptime.Heap.Reach
import Comptime.Heap.Splice
import Comptime.Heap.Visit
import Comptime.Item
import Comptime.Membership
import Comptime.Object
import Comptime.Options
import Comptime.Outcome
import Comptime.Place
import Comptime.Qualify
import Comptime.Queue
import Comptime.Roster
import Comptime.Stage
import Comptime.Sweep
import Comptime.Text.Decimal
import Comptime.Text.DefaultIgnorable
import Comptime.Text.ExtendingMark
import Comptime.Text.Json
import Comptime.Text.Quoted
import Comptime.Text.Ranges
import Comptime.Text.Unprintable
import Comptime.Tracker
import Comptime.Unvisited
import Comptime.Proofs.Reachability
import Comptime.Proofs.Following
import Comptime.Proofs.Places
import Comptime.Proofs.Replacing
import Comptime.Proofs.Tracking
import Comptime.Proofs.BindingOrder
import Comptime.Proofs.Edges
import Comptime.Proofs.Lowering
import Comptime.Proofs.Patching
import Comptime.Proofs.Renaming.Basic
import Comptime.Proofs.Renaming.Rendering
import Comptime.Proofs.Renaming.Nesting
import Comptime.Proofs.Renaming.Emission
import Comptime.Proofs.Renumbering.Basic
import Comptime.Proofs.Evaluation.Parts
import Comptime.Proofs.Evaluation.Laws
import Comptime.Proofs.Evaluation.Soundness
import Comptime.Proofs.Evaluation.Frames
import Comptime.Proofs.Evaluation.Tries
import Comptime.Proofs.Evaluation.Abreast
import Comptime.Proofs.Evaluation.Attempts
import Comptime.Proofs.Evaluation.LawfulRuns
import Comptime.Proofs.Evaluation.Solution
import Comptime.Proofs.Evaluation.Deadlock
import Comptime.Proofs.Evaluation.Escape
import Comptime.Proofs.Evaluation.History
import Comptime.Proofs.Demands
import Comptime.Proofs.Renaming.Membership
import Comptime.Proofs.Renumbering.Link
import Comptime.Proofs.Renumbering.Simulation
import Comptime.Proofs.Renumbering.Evaluation
import Comptime.Proofs.Renumbering.Merging
import Comptime.Proofs.Renumbering.Confluence
import Comptime.Proofs.Renumbering.Coherence
import Comptime.Proofs.Renumbering.Specialization
import Comptime.Proofs.Renaming.Replacement
import Comptime.Proofs.Settlement
import Comptime.Proofs.DepthFirst
import Comptime.Proofs.Renumbering.Settlement
import Comptime.Proofs.Renaming.Resolution
import Comptime.Proofs.Renumbering.DeclarationOrder
import Comptime.Proofs.Untracked
import Comptime.Proofs.Faults.Rendering
import Comptime.Proofs.Faults.Emission
import Comptime.Proofs.Faults.Compilation
import Comptime.Proofs.Cycles
import Comptime.Proofs.Traversal
import Comptime.Proofs.Inlining
import Comptime.Proofs.Termination
import Comptime.Proofs.Duplication
import Comptime.Proofs.Evaluation.Bodies
import Comptime.Proofs.Faults.Resolution
import Comptime.Proofs.Evaluation.Appending
import Comptime.Proofs.Evaluation.Persistence
import Comptime.Proofs.Renaming.Frames
import Comptime.Proofs.Lockstep.Basic
import Comptime.Proofs.Lockstep.Evaluation
import Comptime.Proofs.Lockstep.Specialization
import Comptime.Proofs.Lockstep.Finishing
import Comptime.Proofs.Lockstep.Stationary
import Comptime.Proofs.Membership
import Comptime.Proofs.Currying
import Comptime.Proofs.Delimiting
import Comptime.Proofs.AccessPaths
import Comptime.Proofs.Addressing
import Comptime.Proofs.Layout
import Comptime.Proofs.Hygiene
import Comptime.Proofs.Visiting
import Comptime.Proofs.Refilling
import Comptime.Proofs.Splicing
import Comptime.Proofs.Installing
import Comptime.Proofs.Substitution
import Comptime.Proofs.Capturing
import Comptime.Proofs.Evaluation.Rounds
import Comptime.Proofs.Tokens
import Comptime.Proofs.Readability
import Comptime.Proofs.Laziness.Trailing
import Comptime.Proofs.Laziness.Discretion
import Comptime.Proofs.Laziness.Storing
import Comptime.Proofs.Laziness.Delaying
import Comptime.Proofs.Laziness.DeclarationOrder
