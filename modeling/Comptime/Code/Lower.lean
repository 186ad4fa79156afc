import Comptime.Context.Basic

/-! Lowering: references to slots in run-time code become the items of those slots. -/
namespace Comptime

/-- The first fault of a traversal, if there was one. What comes after it is left as it is. -/
abbrev Lowering := StateM (Option Fault)

section

variable (chain : Chain)

def lowerSlot (a : SlotAddr) : Lowering Code := fun fault =>
  match fault with
  | some e => (.comptime a, some e)
  | none =>
    match chain.readSlot a with
    | .resolved x => (.lit x, none)
    | .pending => (.comptime a, some (.slotStillOpen a))
    | .failed e => (.comptime a, some e)

mutual

def Code.lower : Code → Lowering Code
  | .lit x => return .lit x
  | .comptime a => lowerSlot chain a
  | .ident name => return .ident name
  | .call c args => return .call (← c.lower) (← Code.lowerAll args)
  | .member o name => return .member (← o.lower) name
  | .index o k => return .index (← o.lower) (← k.lower)
  | .array es => return .array (← Code.lowerAll es)
  | .binary op l r => return .binary op (← l.lower) (← r.lower)
  | .lambda params body => return .lambda params (← Stmt.lowerAll body)

def Code.lowerAll : List Code → Lowering (List Code)
  | [] => return []
  | c :: cs => return (← c.lower) :: (← Code.lowerAll cs)

def Stmt.lower : Stmt → Lowering Stmt
  | .letBind name c => return .letBind name (← c.lower)
  | .exportConst name c => return .exportConst name (← c.lower)
  | .expr c => return .expr (← c.lower)
  | .ret c => return .ret (← c.lower)
  | .retVoid => return .retVoid

def Stmt.lowerAll : List Stmt → Lowering (List Stmt)
  | [] => return []
  | s :: ss => return (← s.lower) :: (← Stmt.lowerAll ss)

end

/-- The program lowered up to the first fault, and that fault. -/
def lowerProgram (p : Program) : Program × Option Fault := Stmt.lowerAll chain p none

end

end Comptime
