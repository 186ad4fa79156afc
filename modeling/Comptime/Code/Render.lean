import Comptime.Code.Basic

/-! Text of run-time code. How its leaves are written is left to a `Writer`, in any monad. -/
namespace Comptime

/-- Writes the leaves of run-time code. -/
structure Writer (m : Type → Type) where
  /-- Text that evaluates to the item. -/
  item : Item → m String
  /-- An identifier that no enclosing scope binds. -/
  free : String → m String
  /-- A reference to a slot that was not lowered. -/
  comptime : SlotAddr → m String

/-- The names bound around a piece of code. -/
abbrev Scope := List String

/-- The names that the statements of a block bring into it. -/
def bindings (body : List Stmt) : List String := body.filterMap Stmt.binding?

def commas (parts : List String) : String := ", ".intercalate parts

section

variable {m : Type → Type} [Monad m] (w : Writer m)

mutual

def Code.render : Scope → Code → m String
  | _, .lit x => w.item x
  | _, .comptime a => w.comptime a
  | scope, .ident name => if name ∈ scope then pure name else w.free name
  | scope, .call c args => do
    let f ← c.render scope
    let parts ← Code.renderAll scope args
    return f ++ "(" ++ commas parts ++ ")"
  | scope, .member o name => do
    let obj ← o.render scope
    return obj ++ "." ++ name
  | scope, .index o k => do
    let obj ← o.render scope
    let key ← k.render scope
    return obj ++ "[" ++ key ++ "]"
  | scope, .array es => do
    let parts ← Code.renderAll scope es
    return "[" ++ commas parts ++ "]"
  | scope, .binary op l r => do
    let lhs ← l.render scope
    let rhs ← r.render scope
    return "(" ++ lhs ++ " " ++ op.symbol ++ " " ++ rhs ++ ")"
  | scope, .lambda params body => do
    let lines ← Stmt.renderAll (bindings body ++ (params ++ scope)) body
    return "((" ++ commas params ++ ") => \x7b " ++ " ".intercalate lines ++ " \x7d)"

def Code.renderAll : Scope → List Code → m (List String)
  | _, [] => return []
  | scope, c :: cs => do
    let part ← c.render scope
    let parts ← Code.renderAll scope cs
    return part :: parts

def Stmt.render : Scope → Stmt → m String
  | scope, .letBind name c => do
    let text ← c.render scope
    return "let " ++ name ++ " = " ++ text ++ ";"
  | scope, .exportConst name c => do
    let text ← c.render scope
    return "export const " ++ name ++ " = " ++ text ++ ";"
  | scope, .expr c => do
    let text ← c.render scope
    return text ++ ";"
  | scope, .ret c => do
    let text ← c.render scope
    return "return " ++ text ++ ";"
  | _, .retVoid => return "return;"

/-- The statements of a block, in the scope inside it. -/
def Stmt.renderAll : Scope → List Stmt → m (List String)
  | _, [] => return []
  | scope, s :: ss => do
    let line ← s.render scope
    let lines ← Stmt.renderAll scope ss
    return line :: lines

end

/-- A block. A name bound anywhere in it is local to all of it. -/
def renderBlock (scope : Scope) (body : List Stmt) : m (List String) :=
  Stmt.renderAll w (bindings body ++ scope) body

def renderProgram (p : Program) : m String :=
  return "\n".intercalate (← renderBlock w [] p)

end

end Comptime
