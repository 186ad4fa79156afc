import Comptime.Code.Basic

/-! Rewriting literal items one by one: each is offered to a visitor with effects of its own. -/
namespace Comptime

variable {m : Type → Type} [Monad m] (visitor : Item → m (Option Item))

mutual

/-- Offers the literal items of a piece of code to the visitor, from left to right. An answer
replaces the item. -/
def Code.offer : Code → m Code
  | .lit item => return .lit ((← visitor item).getD item)
  | .comptime a => return .comptime a
  | .ident name => return .ident name
  | .call c args => return .call (← c.offer) (← Code.offerAll args)
  | .member o name => return .member (← o.offer) name
  | .index o k => return .index (← o.offer) (← k.offer)
  | .array es => return .array (← Code.offerAll es)
  | .binary op l r => return .binary op (← l.offer) (← r.offer)
  | .lambda params body => return .lambda params (← Stmt.offerAll body)

def Code.offerAll : List Code → m (List Code)
  | [] => return []
  | c :: cs => return (← c.offer) :: (← Code.offerAll cs)

def Stmt.offer : Stmt → m Stmt
  | .letBind name c => return .letBind name (← c.offer)
  | .exportConst name c => return .exportConst name (← c.offer)
  | .expr c => return .expr (← c.offer)
  | .ret c => return .ret (← c.offer)
  | .retVoid => return .retVoid

def Stmt.offerAll : List Stmt → m (List Stmt)
  | [] => return []
  | s :: ss => return (← s.offer) :: (← Stmt.offerAll ss)

end

/-- An item on its way to a literal: how many literals it was carried past, and the item until it is
handed over. -/
structure Delivery where
  passed : Nat
  item : Option Item

/-- Hands the item to the literal that has `n` others before it. -/
def deliver (n : Nat) (_ : Item) : StateM Delivery (Option Item) := fun d =>
  if d.passed = n then (d.item, ⟨d.passed + 1, none⟩) else (none, ⟨d.passed + 1, d.item⟩)

end Comptime
