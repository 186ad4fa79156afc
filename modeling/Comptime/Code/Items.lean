import Comptime.Code.Basic

/-! The literal items of run-time code, numbered from left to right. -/
namespace Comptime

mutual

/-- The literal items of a piece of code, from left to right. -/
def Code.items : Code → List Item
  | .lit item => [item]
  | .comptime _ | .ident _ => []
  | .call f args => f.items ++ Code.itemsAll args
  | .member o _ => o.items
  | .index o i => o.items ++ i.items
  | .array es => Code.itemsAll es
  | .binary _ l r => l.items ++ r.items
  | .lambda _ body => Stmt.itemsAll body

def Code.itemsAll : List Code → List Item
  | [] => []
  | c :: cs => c.items ++ Code.itemsAll cs

def Stmt.items : Stmt → List Item
  | .letBind _ c | .exportConst _ c | .expr c | .ret c => c.items
  | .retVoid => []

def Stmt.itemsAll : List Stmt → List Item
  | [] => []
  | s :: ss => s.items ++ Stmt.itemsAll ss

end

mutual

/-- The code with every literal item replaced by its image. -/
def Code.mapItems (f : Item → Item) : Code → Code
  | .lit item => .lit (f item)
  | .comptime a => .comptime a
  | .ident name => .ident name
  | .call c args => .call (c.mapItems f) (Code.mapItemsAll f args)
  | .member o name => .member (o.mapItems f) name
  | .index o k => .index (o.mapItems f) (k.mapItems f)
  | .array es => .array (Code.mapItemsAll f es)
  | .binary op l r => .binary op (l.mapItems f) (r.mapItems f)
  | .lambda params body => .lambda params (Stmt.mapItemsAll f body)

def Code.mapItemsAll (f : Item → Item) : List Code → List Code
  | [] => []
  | c :: cs => c.mapItems f :: Code.mapItemsAll f cs

def Stmt.mapItems (f : Item → Item) : Stmt → Stmt
  | .letBind name c => .letBind name (c.mapItems f)
  | .exportConst name c => .exportConst name (c.mapItems f)
  | .expr c => .expr (c.mapItems f)
  | .ret c => .ret (c.mapItems f)
  | .retVoid => .retVoid

def Stmt.mapItemsAll (f : Item → Item) : List Stmt → List Stmt
  | [] => []
  | s :: ss => s.mapItems f :: Stmt.mapItemsAll f ss

end

mutual

/-- The code with the `n`-th of its literal items replaced. -/
def Code.setItem (x : Item) : Code → Nat → Code
  | .lit item, n => if n = 0 then .lit x else .lit item
  | .comptime a, _ => .comptime a
  | .ident name, _ => .ident name
  | .call c args, n =>
    if n < c.items.length then .call (c.setItem x n) args
    else .call c (Code.setItemAll x args (n - c.items.length))
  | .member o name, n => .member (o.setItem x n) name
  | .index o k, n =>
    if n < o.items.length then .index (o.setItem x n) k
    else .index o (k.setItem x (n - o.items.length))
  | .array es, n => .array (Code.setItemAll x es n)
  | .binary op l r, n =>
    if n < l.items.length then .binary op (l.setItem x n) r
    else .binary op l (r.setItem x (n - l.items.length))
  | .lambda params body, n => .lambda params (Stmt.setItemAll x body n)

def Code.setItemAll (x : Item) : List Code → Nat → List Code
  | [], _ => []
  | c :: cs, n =>
    if n < c.items.length then c.setItem x n :: cs
    else c :: Code.setItemAll x cs (n - c.items.length)

def Stmt.setItem (x : Item) : Stmt → Nat → Stmt
  | .letBind name c, n => .letBind name (c.setItem x n)
  | .exportConst name c, n => .exportConst name (c.setItem x n)
  | .expr c, n => .expr (c.setItem x n)
  | .ret c, n => .ret (c.setItem x n)
  | .retVoid, _ => .retVoid

def Stmt.setItemAll (x : Item) : List Stmt → Nat → List Stmt
  | [], _ => []
  | s :: ss, n =>
    if n < s.items.length then s.setItem x n :: ss
    else s :: Stmt.setItemAll x ss (n - s.items.length)

end

/-! What the operations do to the list of items. -/

section

variable (f : Item → Item) (x : Item)

mutual

@[simp]
theorem Code.items_mapItems (c : Code) : (c.mapItems f).items = c.items.map f := by
  cases c with
  | lit | comptime | ident => rfl
  | call c args =>
    simp [Code.mapItems, Code.items, c.items_mapItems, Code.itemsAll_mapItemsAll args]
  | member o _ => exact o.items_mapItems
  | index o k => simp [Code.mapItems, Code.items, o.items_mapItems, k.items_mapItems]
  | array es => exact Code.itemsAll_mapItemsAll es
  | binary _ l r => simp [Code.mapItems, Code.items, l.items_mapItems, r.items_mapItems]
  | lambda _ body => exact Stmt.itemsAll_mapItemsAll body

@[simp]
theorem Code.itemsAll_mapItemsAll (cs : List Code) :
    Code.itemsAll (Code.mapItemsAll f cs) = (Code.itemsAll cs).map f := by
  cases cs with
  | nil => rfl
  | cons c cs =>
    simp [Code.mapItemsAll, Code.itemsAll, c.items_mapItems, Code.itemsAll_mapItemsAll cs]

@[simp]
theorem Stmt.items_mapItems (s : Stmt) : (s.mapItems f).items = s.items.map f := by
  cases s with
  | letBind _ c | exportConst _ c | expr c | ret c => exact c.items_mapItems
  | retVoid => rfl

@[simp]
theorem Stmt.itemsAll_mapItemsAll (ss : List Stmt) :
    Stmt.itemsAll (Stmt.mapItemsAll f ss) = (Stmt.itemsAll ss).map f := by
  cases ss with
  | nil => rfl
  | cons s ss =>
    simp [Stmt.mapItemsAll, Stmt.itemsAll, s.items_mapItems, Stmt.itemsAll_mapItemsAll ss]

end

mutual

@[simp]
theorem Code.items_setItem (c : Code) (n : Nat) : (c.setItem x n).items = c.items.set n x := by
  cases c with
  | lit y => cases n <;> rfl
  | comptime | ident => rfl
  | call c args =>
    simp only [Code.setItem, Code.items, List.set_append]
    split
    · simp [Code.items, c.items_setItem]
    · simp [Code.items, Code.itemsAll_setItemAll args]
  | member o _ => exact o.items_setItem n
  | index o k =>
    simp only [Code.setItem, Code.items, List.set_append]
    split
    · simp [Code.items, o.items_setItem]
    · simp [Code.items, k.items_setItem]
  | array es => exact Code.itemsAll_setItemAll es n
  | binary _ l r =>
    simp only [Code.setItem, Code.items, List.set_append]
    split
    · simp [Code.items, l.items_setItem]
    · simp [Code.items, r.items_setItem]
  | lambda _ body => exact Stmt.itemsAll_setItemAll body n

@[simp]
theorem Code.itemsAll_setItemAll (cs : List Code) (n : Nat) :
    Code.itemsAll (Code.setItemAll x cs n) = (Code.itemsAll cs).set n x := by
  cases cs with
  | nil => rfl
  | cons c cs =>
    simp only [Code.setItemAll, Code.itemsAll, List.set_append]
    split
    · simp [Code.itemsAll, c.items_setItem]
    · simp [Code.itemsAll, Code.itemsAll_setItemAll cs]

@[simp]
theorem Stmt.items_setItem (s : Stmt) (n : Nat) : (s.setItem x n).items = s.items.set n x := by
  cases s with
  | letBind _ c | exportConst _ c | expr c | ret c => exact c.items_setItem n
  | retVoid => rfl

@[simp]
theorem Stmt.itemsAll_setItemAll (ss : List Stmt) (n : Nat) :
    Stmt.itemsAll (Stmt.setItemAll x ss n) = (Stmt.itemsAll ss).set n x := by
  cases ss with
  | nil => rfl
  | cons s ss =>
    simp only [Stmt.setItemAll, Stmt.itemsAll, List.set_append]
    split
    · simp [Stmt.itemsAll, s.items_setItem]
    · simp [Stmt.itemsAll, Stmt.itemsAll_setItemAll ss]

end

end

end Comptime
