import Comptime.Context.Basic
import Comptime.Membership

/-! Evaluation of compile-time expressions. How a generic type is specialized is a parameter here,
since specializing evaluates the groups of the generic in turn. -/
namespace Comptime

/-- Specializes a type for a caller, with the arguments given last. -/
abbrev Qualifier := Chain → TypeValue → Option (List Item) → Eval Item

/-- What an expression yields: an item, or a type that is stored only where an item is needed. -/
inductive Value
  | item (item : Item)
  | type (type : TypeValue)

namespace Value

def store : Value → Eval Item
  | item x => pure x
  | type t => Eval.alloc (.type t)

def asType : Value → Eval TypeValue
  | type t => pure t
  | item x => do
    match (← Run.state).type? x with
    | some t => return t
    | none => Run.fail (.notType x)

end Value

/-- An operator applied to two items. Objects are compared by handle. -/
def Op.apply : Op → Item → Item → Except Fault Item
  | add, .num a, .num b => .ok (.num (a + b))
  | add, .str a, .str b => .ok (.str (a ++ b))
  | sub, .num a, .num b => .ok (.num (a - b))
  | mul, .num a, .num b => .ok (.num (a * b))
  | div, .num a, .num b => .ok (.num (a / b))
  | lt, .num a, .num b => .ok (.bool (a < b))
  | gt, .num a, .num b => .ok (.bool (a > b))
  | and, .bool a, .bool b => .ok (.bool (a && b))
  | or, .bool a, .bool b => .ok (.bool (a || b))
  | op, a, b =>
    if a.isUnknown || b.isUnknown then .error (.operands op a b)
    else
      match op with
      | eq => .ok (.bool (a.same b))
      | ne => .ok (.bool (!a.same b))
      | op => .error (.operands op a b)

/-- Member access. A placeholder found there is read at once. -/
def Chain.member (chain : Chain) (obj : Item) (name : String) : Eval Item := do
  match (((← Run.state).object? obj).bind (·.member? name)) with
  | some (.hole p) => Run.lift (chain.read p)
  | some x => return x
  | none => Run.fail (.noMember obj name)

section

variable (q : Qualifier) (chain : Chain)

mutual

def Expr.run : Expr → Eval Value
  | .lit x => return .item x
  | .var v => do
    match ← Run.lift (Chain.readVar chain v) with
    | some x => return .item x
    | none => return .item (.absent (showVar v ++ " has no value"))
  | .slot a => .item <$> Run.lift (Chain.readSlot chain a)
  | .lazySlot a =>
    match Chain.readSlot chain a with
    | .pending => return .item (.hole (.slot a))
    | o => .item <$> Run.lift o
  | .seq es => do
    let items ← Expr.runAll es
    .item <$> Eval.alloc (.seq items)
  | .record es fs => do
    let features ← Expr.runAll es
    let fields ← Expr.runFields fs
    .item <$> Eval.alloc (.record features fields)
  | .anchor name => .item <$> Eval.alloc (.anchor name)
  | .feature name e fs => do
    let anchor ← (← e.run).store
    let fields ← Expr.runFields fs
    .item <$> Eval.alloc (.feature name anchor fields)
  | .type t => .type <$> t.run
  | .apply e es => do
    let args ← Expr.runArgs es
    let t ← (← e.run).asType
    match t.generic? with
    | some _ => .item <$> Eval.alloc (.type (t.apply args))
    | none => Run.fail (.notApplicable t)
  | .qualify e es => do
    let args ← Expr.runArgs es
    let t ← (← e.run).asType
    .item <$> q chain t args
  | .function name params body fs => do
    let captures ← Expr.runFields fs
    .item <$> Eval.alloc (.function ⟨name, params, body, captures⟩)
  | .member e name => do
    let obj ← (← e.run).store
    .item <$> chain.member obj name
  | .contains e d => do
    let t ← (← e.run).asType
    let x ← (← d.run).store
    return .item (.bool (t.contains (← Run.state) x))
  | .binary op l r => do
    let a ← (← l.run).store
    let b ← (← r.run).store
    .item <$> Run.lift (.ofExcept (op.apply a b))

def Expr.runAll : List Expr → Eval (List Item)
  | [] => return []
  | e :: es => do
    let x ← (← e.run).store
    let xs ← Expr.runAll es
    return x :: xs

def Expr.runFields : List (String × Expr) → Eval Fields
  | [] => return []
  | (name, e) :: fs => do
    let x ← (← e.run).store
    let xs ← Expr.runFields fs
    return (name, x) :: xs

def Expr.runArgs : Option (List Expr) → Eval (Option (List Item))
  | none => return none
  | some es => some <$> Expr.runAll es

def TypeExpr.run : TypeExpr → Eval TypeValue
  | .missing => return { kind := .missing }
  | .undef => return { kind := .undef }
  | .null => return { kind := .null }
  | .bool => return { kind := .bool }
  | .num => return { kind := .num }
  | .str => return { kind := .str }
  | .list => return { kind := .list }
  | .listOf e => do return { kind := .listOf (← (← e.run).store) }
  | .type => return { kind := .type }
  | .anchor => return { kind := .anchor }
  | .feature e => do return { kind := .feature (← (← e.run).store) }
  | .object es fs => do
    let features ← Expr.runAll es
    let fields ← Expr.runFields fs
    return { kind := .object features fields }
  | .generic site => return { kind := .generic site }

end

/-- The item of an expression. -/
def Expr.evalWith (e : Expr) : Eval Item := do (← e.run q chain).store

namespace GroupOf

def evalSlotWith (g : Group) (slot : Nat) : Eval Item :=
  match g.slots[slot]? with
  | some e => e.evalWith q chain
  | none => Run.fail (.noSlotIn g.label slot)

/-- Evaluates every slot in order, whatever is frozen, and yields the last. -/
def evalWith (g : Group) : Eval Item := do
  let items ← Expr.runAll q chain g.slots
  return items.getLast?.getD .undefined

end GroupOf

end

end Comptime
