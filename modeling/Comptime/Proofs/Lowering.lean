import Comptime.Code.Items
import Comptime.Code.Lower

/-! The slots that run-time code refers to. Lowering leaves none of them, unless it meets a fault;
it then leaves the rest of the code as it is. -/
namespace Comptime

mutual

/-- The slots that a piece of code refers to, from left to right. -/
def Code.slots : Code → List SlotAddr
  | .lit _ | .ident _ => []
  | .comptime a => [a]
  | .call f args => f.slots ++ Code.slotsAll args
  | .member o _ => o.slots
  | .index o i => o.slots ++ i.slots
  | .array es => Code.slotsAll es
  | .binary _ l r => l.slots ++ r.slots
  | .lambda _ body => Stmt.slotsAll body

def Code.slotsAll : List Code → List SlotAddr
  | [] => []
  | c :: cs => c.slots ++ Code.slotsAll cs

def Stmt.slots : Stmt → List SlotAddr
  | .letBind _ c | .exportConst _ c | .expr c | .ret c => c.slots
  | .retVoid => []

def Stmt.slotsAll : List Stmt → List SlotAddr
  | [] => []
  | s :: ss => s.slots ++ Stmt.slotsAll ss

end

section

variable (f : Item → Item)

mutual

@[simp]
theorem Code.slots_mapItems (c : Code) : (c.mapItems f).slots = c.slots := by
  cases c with
  | lit | comptime | ident => rfl
  | call c args =>
    simp [Code.mapItems, Code.slots, c.slots_mapItems, Code.slotsAll_mapItemsAll args]
  | member o _ => exact o.slots_mapItems
  | index o k => simp [Code.mapItems, Code.slots, o.slots_mapItems, k.slots_mapItems]
  | array es => exact Code.slotsAll_mapItemsAll es
  | binary _ l r => simp [Code.mapItems, Code.slots, l.slots_mapItems, r.slots_mapItems]
  | lambda _ body => exact Stmt.slotsAll_mapItemsAll body

@[simp]
theorem Code.slotsAll_mapItemsAll (cs : List Code) :
    Code.slotsAll (Code.mapItemsAll f cs) = Code.slotsAll cs := by
  cases cs with
  | nil => rfl
  | cons c cs =>
    simp [Code.mapItemsAll, Code.slotsAll, c.slots_mapItems, Code.slotsAll_mapItemsAll cs]

@[simp]
theorem Stmt.slots_mapItems (s : Stmt) : (s.mapItems f).slots = s.slots := by
  cases s with
  | letBind _ c | exportConst _ c | expr c | ret c => exact c.slots_mapItems
  | retVoid => rfl

@[simp]
theorem Stmt.slotsAll_mapItemsAll (ss : List Stmt) :
    Stmt.slotsAll (Stmt.mapItemsAll f ss) = Stmt.slotsAll ss := by
  cases ss with
  | nil => rfl
  | cons s ss =>
    simp [Stmt.mapItemsAll, Stmt.slotsAll, s.slots_mapItems, Stmt.slotsAll_mapItemsAll ss]

end

end

section

variable (x : Item)

mutual

@[simp]
theorem Code.slots_setItem (c : Code) (n : Nat) : (c.setItem x n).slots = c.slots := by
  cases c with
  | lit y =>
    simp only [Code.setItem]
    split <;> rfl
  | comptime | ident => rfl
  | call c args =>
    simp only [Code.setItem]
    split <;> simp [Code.slots, c.slots_setItem, Code.slotsAll_setItemAll args]
  | member o _ => exact o.slots_setItem n
  | index o k =>
    simp only [Code.setItem]
    split <;> simp [Code.slots, o.slots_setItem, k.slots_setItem]
  | array es => exact Code.slotsAll_setItemAll es n
  | binary _ l r =>
    simp only [Code.setItem]
    split <;> simp [Code.slots, l.slots_setItem, r.slots_setItem]
  | lambda _ body => exact Stmt.slotsAll_setItemAll body n

@[simp]
theorem Code.slotsAll_setItemAll (cs : List Code) (n : Nat) :
    Code.slotsAll (Code.setItemAll x cs n) = Code.slotsAll cs := by
  cases cs with
  | nil => rfl
  | cons c cs =>
    simp only [Code.setItemAll]
    split <;> simp [Code.slotsAll, c.slots_setItem, Code.slotsAll_setItemAll cs]

@[simp]
theorem Stmt.slots_setItem (s : Stmt) (n : Nat) : (s.setItem x n).slots = s.slots := by
  cases s with
  | letBind _ c | exportConst _ c | expr c | ret c => exact c.slots_setItem n
  | retVoid => rfl

@[simp]
theorem Stmt.slotsAll_setItemAll (ss : List Stmt) (n : Nat) :
    Stmt.slotsAll (Stmt.setItemAll x ss n) = Stmt.slotsAll ss := by
  cases ss with
  | nil => rfl
  | cons s ss =>
    simp only [Stmt.setItemAll]
    split <;> simp [Stmt.slotsAll, s.slots_setItem, Stmt.slotsAll_setItemAll ss]

end

end

variable {chain : Chain}

mutual

/-- After a fault the code is left as it is. -/
theorem Code.lower_fault (c : Code) (e : Fault) : c.lower chain (some e) = (c, some e) := by
  cases c with
  | lit | comptime | ident => rfl
  | call c args =>
    change (Code.call (c.lower chain (some e)).1 _, _) = _
    rw [Code.lower_fault c e, Code.lowerAll_fault args e]
  | member o name =>
    change (Code.member (o.lower chain (some e)).1 name, _) = _
    rw [Code.lower_fault o e]
  | index o k =>
    change (Code.index (o.lower chain (some e)).1 _, _) = _
    rw [Code.lower_fault o e, Code.lower_fault k e]
  | array es =>
    change (Code.array (Code.lowerAll chain es (some e)).1, _) = _
    rw [Code.lowerAll_fault es e]
  | binary op a b =>
    change (Code.binary op (a.lower chain (some e)).1 _, _) = _
    rw [Code.lower_fault a e, Code.lower_fault b e]
  | lambda params body =>
    change (Code.lambda params (Stmt.lowerAll chain body (some e)).1, _) = _
    rw [Stmt.lowerAll_fault body e]

theorem Code.lowerAll_fault (cs : List Code) (e : Fault) :
    Code.lowerAll chain cs (some e) = (cs, some e) := by
  cases cs with
  | nil => rfl
  | cons c cs =>
    change ((c.lower chain (some e)).1 :: _, _) = _
    rw [Code.lower_fault c e, Code.lowerAll_fault cs e]

theorem Stmt.lower_fault (s : Stmt) (e : Fault) : s.lower chain (some e) = (s, some e) := by
  cases s with
  | letBind name c =>
    change (Stmt.letBind name (c.lower chain (some e)).1, _) = _
    rw [Code.lower_fault c e]
  | exportConst name c =>
    change (Stmt.exportConst name (c.lower chain (some e)).1, _) = _
    rw [Code.lower_fault c e]
  | expr c =>
    change (Stmt.expr (c.lower chain (some e)).1, _) = _
    rw [Code.lower_fault c e]
  | ret c =>
    change (Stmt.ret (c.lower chain (some e)).1, _) = _
    rw [Code.lower_fault c e]
  | retVoid => rfl

theorem Stmt.lowerAll_fault (ss : List Stmt) (e : Fault) :
    Stmt.lowerAll chain ss (some e) = (ss, some e) := by
  cases ss with
  | nil => rfl
  | cons s ss =>
    change ((s.lower chain (some e)).1 :: _, _) = _
    rw [Stmt.lower_fault s e, Stmt.lowerAll_fault ss e]

end

/-- A traversal that keeps faults and ends without one began without one. -/
theorem Lowering.eq_none {α : Type} {m : Lowering α} {s : Option Fault}
    (hm : ∀ e, (m (some e)).2 = some e) (h : (m s).2 = none) : s = none := by
  cases s with
  | none => rfl
  | some e =>
    rw [hm e] at h
    cases h

theorem slots_lowerSlot {a : SlotAddr} {s : Option Fault} (h : (lowerSlot chain a s).2 = none) :
    (lowerSlot chain a s).1.slots = [] := by
  unfold lowerSlot at h ⊢
  split at h
  · cases h
  · split at h
    · simp_all [Code.slots]
    · cases h
    · cases h

mutual

theorem Code.slots_lower (c : Code) (s : Option Fault) (h : (c.lower chain s).2 = none) :
    (c.lower chain s).1.slots = [] := by
  cases c with
  | lit | ident => rfl
  | comptime a => exact slots_lowerSlot h
  | call c args =>
    have hargs := Code.slots_lowerAll args (c.lower chain s).2 h
    have hc := Code.slots_lower c s (Lowering.eq_none (fun e => by rw [Code.lowerAll_fault]) h)
    exact List.append_eq_nil_iff.mpr ⟨hc, hargs⟩
  | member o name => exact Code.slots_lower o s h
  | index o k =>
    have hk := Code.slots_lower k (o.lower chain s).2 h
    have ho := Code.slots_lower o s (Lowering.eq_none (fun e => by rw [Code.lower_fault]) h)
    exact List.append_eq_nil_iff.mpr ⟨ho, hk⟩
  | array es => exact Code.slots_lowerAll es s h
  | binary op a b =>
    have hb := Code.slots_lower b (a.lower chain s).2 h
    have ha := Code.slots_lower a s (Lowering.eq_none (fun e => by rw [Code.lower_fault]) h)
    exact List.append_eq_nil_iff.mpr ⟨ha, hb⟩
  | lambda params body => exact Stmt.slots_lowerAll body s h

theorem Code.slots_lowerAll (cs : List Code) (s : Option Fault)
    (h : (Code.lowerAll chain cs s).2 = none) :
    Code.slotsAll (Code.lowerAll chain cs s).1 = [] := by
  cases cs with
  | nil => rfl
  | cons c cs =>
    have hcs := Code.slots_lowerAll cs (c.lower chain s).2 h
    have hc := Code.slots_lower c s (Lowering.eq_none (fun e => by rw [Code.lowerAll_fault]) h)
    exact List.append_eq_nil_iff.mpr ⟨hc, hcs⟩

theorem Stmt.slots_lower (t : Stmt) (s : Option Fault) (h : (t.lower chain s).2 = none) :
    (t.lower chain s).1.slots = [] := by
  cases t with
  | letBind _ c | exportConst _ c | expr c | ret c => exact Code.slots_lower c s h
  | retVoid => rfl

theorem Stmt.slots_lowerAll (ts : List Stmt) (s : Option Fault)
    (h : (Stmt.lowerAll chain ts s).2 = none) :
    Stmt.slotsAll (Stmt.lowerAll chain ts s).1 = [] := by
  cases ts with
  | nil => rfl
  | cons t ts =>
    have hts := Stmt.slots_lowerAll ts (t.lower chain s).2 h
    have ht := Stmt.slots_lower t s (Lowering.eq_none (fun e => by rw [Stmt.lowerAll_fault]) h)
    exact List.append_eq_nil_iff.mpr ⟨ht, hts⟩

end

/-- A program that was lowered without a fault refers to no slot. -/
theorem slots_lowerProgram {p q : Program} (h : lowerProgram chain p = (q, none)) :
    Stmt.slotsAll q = [] := by
  unfold lowerProgram at h
  have hq := Stmt.slots_lowerAll p none (congrArg Prod.snd h)
  rwa [h] at hq

end Comptime
