import Comptime.Sweep

/-! Specialization of generic types. The arguments noted on a type are gathered for each generic,
the groups of those generics are resolved in a frame of their own, and the body of the type's
generic is evaluated there. -/
namespace Comptime

namespace TypeValue

/-- How many applications await their arguments. -/
def awaiting (t : TypeValue) : Nat := t.applications.countP fun a => a.args.isNone

/-- The arguments of an application, or those given last if it awaits them. -/
def chunk (t : TypeValue) (input : Option (List Item)) (a : Application) :
    Except Fault (Generic × List Item) :=
  match a.args.or input with
  | some args => .ok (a.site, args)
  | none => .error (.noArguments t)

/-- The applications of a generic type, the latest first, with the arguments given last in the
place that awaits them or else in front of all. -/
def chunks (t : TypeValue) (target : Generic) (input : Option (List Item)) :
    Except Fault (List (Generic × List Item)) :=
  if 1 < t.awaiting then .error (.awaitsTwice t t.awaiting)
  else do
    let noted ← t.applications.reverse.mapM (t.chunk input)
    return if t.awaiting = 0 then input.toList.map (target, ·) ++ noted else noted

/-- Puts earlier arguments of a generic in front of those known so far. -/
def gather (known : List (Generic × List Item)) (site : Generic) (args : List Item) :
    List (Generic × List Item) :=
  match known with
  | [] => [(site, args)]
  | (s, later) :: rest =>
    if s.id = site.id then (s, args ++ later) :: rest else (s, later) :: gather rest site args

/-- The generics to be bound with all their arguments. The type's own generic is among them even
without arguments. -/
def arguments? (t : TypeValue) (target : Generic) (input : Option (List Item)) :
    Except Fault (List (Generic × List Item)) := do
  let chunks ← t.chunks target input
  let bound := chunks.foldl (fun known c => gather known c.1 c.2) []
  return if bound.any fun b => b.1.id == target.id then bound else bound ++ [(target, [])]

end TypeValue

namespace Frame

/-- Brings the groups of a generic into the frame and binds its parameters. -/
def enter (f : Frame) (site : Generic) (args : List Item) : Except Fault Frame :=
  (site.groups.foldl addGroup f).bindParams site args

end Frame

/-- Resolves the groups of a frame inside a chain, and gives the chain as it is then seen from
within. Waits while one of their slots is open. -/
def resolveInside (q : Qualifier) (chain : Chain) (frame : Frame) : Eval Chain := fun heap =>
  match World.stallWith q ⟨⟨frame, chain⟩, heap⟩ with
  | (.ok fix, w) => if fix.complete then (.resolved w.chain, w.heap) else (.pending, w.heap)
  | (.error e, w) => (.failed e, w.heap)

/-- Specializes a type, with `q` for the specializations that this needs in turn. -/
def qualifyWith (q : Qualifier) : Qualifier := fun chain t input => do
  match t.generic? with
  | none => Run.fail (.notGeneric t)
  | some target =>
    let bound ← Run.lift (.ofExcept (t.arguments? target input))
    let frame ← Run.lift (.ofExcept (bound.foldlM (fun f b => f.enter b.1 b.2) {}))
    let inner ← resolveInside q chain frame
    let body ← target.body.evalWith q inner
    match (← Run.state).type? body with
    | some _ => return body
    | none => Run.fail (.bodyNotType target.name body)

/-- Specializes a type. At most `depth` specializations may nest. -/
def qualifyWithin : Nat → Qualifier
  | 0, _, _, _ => Run.fail .tooDeep
  | depth + 1, chain, t, input => qualifyWith (qualifyWithin depth) chain t input

/-- How deep specializations may nest. A generic that is given to itself nests without end, so some
bound is needed. Generics that double each other nest deeply and still end, so it is a high one. -/
def depthLimit : Nat := 1000000

def TypeValue.qualify (t : TypeValue) (chain : Chain) (input : Option (List Item)) : Eval Item :=
  qualifyWithin depthLimit chain t input

def Expr.eval (e : Expr) (chain : Chain) : Eval Item :=
  e.evalWith (qualifyWithin depthLimit) chain

def GroupOf.evalSlot (g : Group) (slot : Nat) (chain : Chain) : Eval Item :=
  g.evalSlotWith (qualifyWithin depthLimit) chain slot

def GroupOf.eval (g : Group) (chain : Chain) : Eval Item :=
  g.evalWith (qualifyWithin depthLimit) chain

namespace World

def sweep : Job World Progress := sweepWith (qualifyWithin depthLimit)

def stall : Job World Fixpoint := stallWith (qualifyWithin depthLimit)

def resolve : Job World Nat := resolveWith (qualifyWithin depthLimit)

end World

end Comptime
