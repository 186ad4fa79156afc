import Comptime.Item

/-! Run-time code: what is written to the output as ordinary program text. Compile-time values occur
in it as literal items, and as references to slots until those are lowered. -/
namespace Comptime

inductive Op
  | add | sub | mul | div | eq | ne | lt | gt | and | or
deriving DecidableEq

def Op.symbol : Op → String
  | add => "+"
  | sub => "-"
  | mul => "*"
  | div => "/"
  | eq => "==="
  | ne => "!=="
  | lt => "<"
  | gt => ">"
  | and => "&&"
  | or => "||"

mutual

inductive Code
  | lit (item : Item)
  | comptime (addr : SlotAddr)
  | ident (name : String)
  | call (callee : Code) (args : List Code)
  | member (obj : Code) (name : String)
  | index (obj key : Code)
  | array (elements : List Code)
  | binary (op : Op) (lhs rhs : Code)
  | lambda (params : List String) (body : List Stmt)

inductive Stmt
  | letBind (name : String) (init : Code)
  | exportConst (name : String) (init : Code)
  | expr (code : Code)
  | ret (value : Code)
  | retVoid

end

/-- The name a statement brings into its block. -/
def Stmt.binding? : Stmt → Option String
  | letBind name _ | exportConst name _ => some name
  | _ => none

/-- The run-time part of a unit. -/
abbrev Program := List Stmt

end Comptime
