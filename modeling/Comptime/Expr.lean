import Comptime.Code.Basic

/-! Compile-time expressions. They come in groups, one expression per slot; a generic brings groups
of its own and a body group that yields the specialized type.

Resolution needs no more of a group than its id, the number of its slots, a way to resolve each of
them and a description of it. A list of expressions is the only kind of group that offers these, so
`GroupOf` is that kind, and not an interface to others. -/
namespace Comptime

/-- A labelled list of slots. -/
structure GroupOf (ε : Type) where
  id : GroupId
  label : String
  slots : List ε

/-- The declaration of a generic. -/
structure GenericOf (ε : Type) where
  id : GenericId
  name : String
  params : List VarId
  groups : List (GroupOf ε)
  body : GroupOf ε

mutual

inductive Expr
  | lit (item : Item)
  | var (id : VarId)
  /-- Waits for the slot. -/
  | slot (addr : SlotAddr)
  /-- Gives a hole while the slot is open. -/
  | lazySlot (addr : SlotAddr)
  | seq (items : List Expr)
  | record (features : List Expr) (fields : List (String × Expr))
  | anchor (name : String)
  | feature (name : String) (anchor : Expr) (fields : List (String × Expr))
  | type (type : TypeExpr)
  /-- Notes arguments on a generic type without specializing it. -/
  | apply (type : Expr) (args : Option (List Expr))
  /-- Specializes a generic type now. -/
  | qualify (type : Expr) (args : Option (List Expr))
  | function (name : String) (params : List String) (body : List Stmt)
      (captures : List (String × Expr))
  | member (obj : Expr) (name : String)
  | contains (type value : Expr)
  | binary (op : Op) (lhs rhs : Expr)

inductive TypeExpr
  | missing
  | undef
  | null
  | bool
  | num
  | str
  | list
  | listOf (element : Expr)
  | type
  | anchor
  | feature (anchor : Expr)
  | object (features : List Expr) (fields : List (String × Expr))
  | generic (site : GenericOf Expr)

end

abbrev Group := GroupOf Expr

abbrev Generic := GenericOf Expr

def GroupOf.describe {ε : Type} (g : GroupOf ε) (slot : Nat) : String :=
  g.label ++ "[" ++ toString slot ++ "]"

end Comptime
