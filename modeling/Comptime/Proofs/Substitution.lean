import Comptime.Proofs.Evaluation.Attempts
import Comptime.Proofs.Faults.Compilation
import Comptime.Proofs.Following
import Mathlib

/-! Resolution as a substitution. What a unit writes at run time is its program with the slots and
the literal items replaced, each by the end of its chain, and with nothing else changed. -/
namespace Comptime

section Subst

variable (slot : SlotAddr → Item) (item : Item → Item)

mutual

/-- The code with a literal for every slot, and with every literal item replaced by its image. -/
def Code.subst : Code → Code
  | .lit x => .lit (item x)
  | .comptime a => .lit (slot a)
  | .ident name => .ident name
  | .call c args => .call c.subst (Code.substAll args)
  | .member o name => .member o.subst name
  | .index o k => .index o.subst k.subst
  | .array es => .array (Code.substAll es)
  | .binary op l r => .binary op l.subst r.subst
  | .lambda params body => .lambda params (Stmt.substAll body)

def Code.substAll : List Code → List Code
  | [] => []
  | c :: cs => c.subst :: Code.substAll cs

def Stmt.subst : Stmt → Stmt
  | .letBind name c => .letBind name c.subst
  | .exportConst name c => .exportConst name c.subst
  | .expr c => .expr c.subst
  | .ret c => .ret c.subst
  | .retVoid => .retVoid

def Stmt.substAll : List Stmt → List Stmt
  | [] => []
  | s :: ss => s.subst :: Stmt.substAll ss

end

variable (f : Item → Item)

mutual

/-- Mapping the items after a substitution is a substitution. -/
theorem Code.mapItems_subst (c : Code) :
    (c.subst slot item).mapItems f = c.subst (f ∘ slot) (f ∘ item) := by
  cases c with
  | lit | comptime | ident => rfl
  | call c args =>
    simp only [Code.subst, Code.mapItems, c.mapItems_subst, Code.mapItemsAll_substAll args]
  | member o _ => simp only [Code.subst, Code.mapItems, o.mapItems_subst]
  | index o k => simp only [Code.subst, Code.mapItems, o.mapItems_subst, k.mapItems_subst]
  | array es => simp only [Code.subst, Code.mapItems, Code.mapItemsAll_substAll es]
  | binary _ l r => simp only [Code.subst, Code.mapItems, l.mapItems_subst, r.mapItems_subst]
  | lambda _ body => simp only [Code.subst, Code.mapItems, Stmt.mapItemsAll_substAll body]

theorem Code.mapItemsAll_substAll (cs : List Code) :
    Code.mapItemsAll f (Code.substAll slot item cs) = Code.substAll (f ∘ slot) (f ∘ item) cs := by
  cases cs with
  | nil => rfl
  | cons c cs =>
    simp only [Code.substAll, Code.mapItemsAll, c.mapItems_subst, Code.mapItemsAll_substAll cs]

theorem Stmt.mapItems_subst (s : Stmt) :
    (s.subst slot item).mapItems f = s.subst (f ∘ slot) (f ∘ item) := by
  cases s with
  | letBind _ c | exportConst _ c | expr c | ret c =>
    simp only [Stmt.subst, Stmt.mapItems, c.mapItems_subst]
  | retVoid => rfl

theorem Stmt.mapItemsAll_substAll (ss : List Stmt) :
    Stmt.mapItemsAll f (Stmt.substAll slot item ss) = Stmt.substAll (f ∘ slot) (f ∘ item) ss := by
  cases ss with
  | nil => rfl
  | cons s ss =>
    simp only [Stmt.substAll, Stmt.mapItemsAll, s.mapItems_subst, Stmt.mapItemsAll_substAll ss]

end

variable {x : Item}

theorem mem_items_append {slots slots' : List SlotAddr} {items items' : List Item} :
    (((∃ a ∈ slots, slot a = x) ∨ ∃ y ∈ items, item y = x) ∨
      (∃ a ∈ slots', slot a = x) ∨ ∃ y ∈ items', item y = x) ↔
      (∃ a ∈ slots ++ slots', slot a = x) ∨ ∃ y ∈ items ++ items', item y = x := by
  simp only [List.mem_append, or_and_right, exists_or]
  exact or_or_or_comm

mutual

/-- The items of the result are the images of the slots and of the items. -/
theorem Code.mem_items_subst (c : Code) : x ∈ (c.subst slot item).items ↔
    (∃ a ∈ c.slots, slot a = x) ∨ ∃ y ∈ c.items, item y = x := by
  cases c with
  | lit | comptime | ident => simp [Code.subst, Code.items, Code.slots, eq_comm]
  | call c args =>
    rw [Code.subst, Code.items, List.mem_append, c.mem_items_subst,
      Code.mem_itemsAll_substAll args, mem_items_append]
    rfl
  | member o _ => exact o.mem_items_subst
  | index o k =>
    rw [Code.subst, Code.items, List.mem_append, o.mem_items_subst, k.mem_items_subst,
      mem_items_append]
    rfl
  | array es => exact Code.mem_itemsAll_substAll es
  | binary _ l r =>
    rw [Code.subst, Code.items, List.mem_append, l.mem_items_subst, r.mem_items_subst,
      mem_items_append]
    rfl
  | lambda _ body => exact Stmt.mem_itemsAll_substAll body

theorem Code.mem_itemsAll_substAll (cs : List Code) :
    x ∈ Code.itemsAll (Code.substAll slot item cs) ↔
      (∃ a ∈ Code.slotsAll cs, slot a = x) ∨ ∃ y ∈ Code.itemsAll cs, item y = x := by
  cases cs with
  | nil => simp [Code.substAll, Code.itemsAll, Code.slotsAll]
  | cons c cs =>
    rw [Code.substAll, Code.itemsAll, List.mem_append, c.mem_items_subst,
      Code.mem_itemsAll_substAll cs, mem_items_append]
    rfl

theorem Stmt.mem_items_subst (s : Stmt) : x ∈ (s.subst slot item).items ↔
    (∃ a ∈ s.slots, slot a = x) ∨ ∃ y ∈ s.items, item y = x := by
  cases s with
  | letBind _ c | exportConst _ c | expr c | ret c => exact c.mem_items_subst
  | retVoid => simp [Stmt.subst, Stmt.items, Stmt.slots]

theorem Stmt.mem_itemsAll_substAll (ss : List Stmt) :
    x ∈ Stmt.itemsAll (Stmt.substAll slot item ss) ↔
      (∃ a ∈ Stmt.slotsAll ss, slot a = x) ∨ ∃ y ∈ Stmt.itemsAll ss, item y = x := by
  cases ss with
  | nil => simp [Stmt.substAll, Stmt.itemsAll, Stmt.slotsAll]
  | cons s ss =>
    rw [Stmt.substAll, Stmt.itemsAll, List.mem_append, s.mem_items_subst,
      Stmt.mem_itemsAll_substAll ss, mem_items_append]
    rfl

end

variable {slot item} {slot' : SlotAddr → Item} {item' : Item → Item}

mutual

/-- A substitution looks at the slots and the items that occur. -/
theorem Code.subst_congr (c : Code) (ha : ∀ a ∈ c.slots, slot a = slot' a)
    (hx : ∀ x ∈ c.items, item x = item' x) : c.subst slot item = c.subst slot' item' := by
  cases c with
  | lit x => exact congrArg Code.lit (hx x (List.mem_singleton.mpr rfl))
  | comptime a => exact congrArg Code.lit (ha a (List.mem_singleton.mpr rfl))
  | ident => rfl
  | call c args =>
    rw [Code.slots, List.forall_mem_append] at ha
    rw [Code.items, List.forall_mem_append] at hx
    rw [Code.subst, Code.subst, Code.subst_congr c ha.1 hx.1, Code.substAll_congr args ha.2 hx.2]
  | member o _ => rw [Code.subst, Code.subst, Code.subst_congr o ha hx]
  | index o k =>
    rw [Code.slots, List.forall_mem_append] at ha
    rw [Code.items, List.forall_mem_append] at hx
    rw [Code.subst, Code.subst, Code.subst_congr o ha.1 hx.1, Code.subst_congr k ha.2 hx.2]
  | array es => rw [Code.subst, Code.subst, Code.substAll_congr es ha hx]
  | binary _ a b =>
    rw [Code.slots, List.forall_mem_append] at ha
    rw [Code.items, List.forall_mem_append] at hx
    rw [Code.subst, Code.subst, Code.subst_congr a ha.1 hx.1, Code.subst_congr b ha.2 hx.2]
  | lambda _ body => rw [Code.subst, Code.subst, Stmt.substAll_congr body ha hx]

theorem Code.substAll_congr (cs : List Code) (ha : ∀ a ∈ Code.slotsAll cs, slot a = slot' a)
    (hx : ∀ x ∈ Code.itemsAll cs, item x = item' x) :
    Code.substAll slot item cs = Code.substAll slot' item' cs := by
  cases cs with
  | nil => rfl
  | cons c cs =>
    rw [Code.slotsAll, List.forall_mem_append] at ha
    rw [Code.itemsAll, List.forall_mem_append] at hx
    rw [Code.substAll, Code.substAll, Code.subst_congr c ha.1 hx.1,
      Code.substAll_congr cs ha.2 hx.2]

theorem Stmt.subst_congr (s : Stmt) (ha : ∀ a ∈ s.slots, slot a = slot' a)
    (hx : ∀ x ∈ s.items, item x = item' x) : s.subst slot item = s.subst slot' item' := by
  cases s with
  | letBind _ c | exportConst _ c | expr c | ret c =>
    rw [Stmt.subst, Stmt.subst, Code.subst_congr c ha hx]
  | retVoid => rfl

theorem Stmt.substAll_congr (ss : List Stmt) (ha : ∀ a ∈ Stmt.slotsAll ss, slot a = slot' a)
    (hx : ∀ x ∈ Stmt.itemsAll ss, item x = item' x) :
    Stmt.substAll slot item ss = Stmt.substAll slot' item' ss := by
  cases ss with
  | nil => rfl
  | cons s ss =>
    rw [Stmt.slotsAll, List.forall_mem_append] at ha
    rw [Stmt.itemsAll, List.forall_mem_append] at hx
    rw [Stmt.substAll, Stmt.substAll, Stmt.subst_congr s ha.1 hx.1,
      Stmt.substAll_congr ss ha.2 hx.2]

end

end Subst

section Lower

variable {chain : Chain}

/-- The item of a frozen slot. -/
def Chain.slotItem (chain : Chain) (a : SlotAddr) : Item :=
  match chain.readSlot a with
  | .resolved x => x
  | _ => .undefined

/-- All these slots are frozen. -/
def Chain.Frozen (chain : Chain) (slots : List SlotAddr) : Prop :=
  ∀ a ∈ slots, chain.readSlot a = .resolved (chain.slotItem a)

theorem Chain.Frozen.append {slots slots' : List SlotAddr} (h : chain.Frozen slots)
    (h' : chain.Frozen slots') : chain.Frozen (slots ++ slots') :=
  List.forall_mem_append.mpr ⟨h, h'⟩

theorem lowerSlot_eq_lit {a : SlotAddr} {s : Option Fault} (h : (lowerSlot chain a s).2 = none) :
    (lowerSlot chain a s).1 = .lit (chain.slotItem a) ∧ chain.Frozen [a] := by
  unfold lowerSlot at h ⊢
  split at h
  · cases h
  · unfold Chain.Frozen Chain.slotItem
    split at h
    · rename_i x hx
      simp [hx]
    · cases h
    · cases h

mutual

/-- Lowering without a fault is a substitution, and every slot that it meets is frozen. -/
theorem Code.lower_eq_subst (c : Code) (s : Option Fault) (h : (c.lower chain s).2 = none) :
    (c.lower chain s).1 = c.subst chain.slotItem id ∧ chain.Frozen c.slots := by
  cases c with
  | lit | ident => exact ⟨rfl, List.forall_mem_nil _⟩
  | comptime a => exact lowerSlot_eq_lit h
  | call c args =>
    -- a fault of the callee would have been passed on, so there is none if the arguments end well
    obtain ⟨hargs, hargs'⟩ := Code.lowerAll_eq_substAll args (c.lower chain s).2 h
    obtain ⟨hc, hc'⟩ :=
      Code.lower_eq_subst c s (Lowering.eq_none (fun e => by rw [Code.lowerAll_fault]) h)
    exact ⟨congrArg₂ Code.call hc hargs, hc'.append hargs'⟩
  | member o name =>
    obtain ⟨ho, ho'⟩ := Code.lower_eq_subst o s h
    exact ⟨congrArg (Code.member · name) ho, ho'⟩
  | index o k =>
    obtain ⟨hk, hk'⟩ := Code.lower_eq_subst k (o.lower chain s).2 h
    obtain ⟨ho, ho'⟩ :=
      Code.lower_eq_subst o s (Lowering.eq_none (fun e => by rw [Code.lower_fault]) h)
    exact ⟨congrArg₂ Code.index ho hk, ho'.append hk'⟩
  | array es =>
    obtain ⟨hes, hes'⟩ := Code.lowerAll_eq_substAll es s h
    exact ⟨congrArg Code.array hes, hes'⟩
  | binary op a b =>
    obtain ⟨hb, hb'⟩ := Code.lower_eq_subst b (a.lower chain s).2 h
    obtain ⟨ha, ha'⟩ :=
      Code.lower_eq_subst a s (Lowering.eq_none (fun e => by rw [Code.lower_fault]) h)
    exact ⟨congrArg₂ (Code.binary op) ha hb, ha'.append hb'⟩
  | lambda params body =>
    obtain ⟨hbody, hbody'⟩ := Stmt.lowerAll_eq_substAll body s h
    exact ⟨congrArg (Code.lambda params) hbody, hbody'⟩

theorem Code.lowerAll_eq_substAll (cs : List Code) (s : Option Fault)
    (h : (Code.lowerAll chain cs s).2 = none) :
    (Code.lowerAll chain cs s).1 = Code.substAll chain.slotItem id cs ∧
      chain.Frozen (Code.slotsAll cs) := by
  cases cs with
  | nil => exact ⟨rfl, List.forall_mem_nil _⟩
  | cons c cs =>
    obtain ⟨hcs, hcs'⟩ := Code.lowerAll_eq_substAll cs (c.lower chain s).2 h
    obtain ⟨hc, hc'⟩ :=
      Code.lower_eq_subst c s (Lowering.eq_none (fun e => by rw [Code.lowerAll_fault]) h)
    exact ⟨congrArg₂ List.cons hc hcs, hc'.append hcs'⟩

theorem Stmt.lower_eq_subst (t : Stmt) (s : Option Fault) (h : (t.lower chain s).2 = none) :
    (t.lower chain s).1 = t.subst chain.slotItem id ∧ chain.Frozen t.slots := by
  cases t with
  | letBind name c =>
    obtain ⟨hc, hc'⟩ := Code.lower_eq_subst c s h
    exact ⟨congrArg (Stmt.letBind name) hc, hc'⟩
  | exportConst name c =>
    obtain ⟨hc, hc'⟩ := Code.lower_eq_subst c s h
    exact ⟨congrArg (Stmt.exportConst name) hc, hc'⟩
  | expr c =>
    obtain ⟨hc, hc'⟩ := Code.lower_eq_subst c s h
    exact ⟨congrArg Stmt.expr hc, hc'⟩
  | ret c =>
    obtain ⟨hc, hc'⟩ := Code.lower_eq_subst c s h
    exact ⟨congrArg Stmt.ret hc, hc'⟩
  | retVoid => exact ⟨rfl, List.forall_mem_nil _⟩

theorem Stmt.lowerAll_eq_substAll (ts : List Stmt) (s : Option Fault)
    (h : (Stmt.lowerAll chain ts s).2 = none) :
    (Stmt.lowerAll chain ts s).1 = Stmt.substAll chain.slotItem id ts ∧
      chain.Frozen (Stmt.slotsAll ts) := by
  cases ts with
  | nil => exact ⟨rfl, List.forall_mem_nil _⟩
  | cons t ts =>
    obtain ⟨hts, hts'⟩ := Stmt.lowerAll_eq_substAll ts (t.lower chain s).2 h
    obtain ⟨ht, ht'⟩ :=
      Stmt.lower_eq_subst t s (Lowering.eq_none (fun e => by rw [Stmt.lowerAll_fault]) h)
    exact ⟨congrArg₂ List.cons ht hts, ht'.append hts'⟩

end

mutual

/-- Where all slots are frozen, lowering meets no fault. -/
theorem Code.lower_of_frozen (c : Code) (h : chain.Frozen c.slots) :
    (c.lower chain none).2 = none := by
  cases c with
  | lit | ident => rfl
  | comptime a =>
    change (lowerSlot chain a none).2 = none
    simp only [lowerSlot, h a (List.mem_singleton.mpr rfl)]
  | call c args =>
    obtain ⟨hc, hargs⟩ := List.forall_mem_append.mp h
    change (Code.lowerAll chain args (c.lower chain none).2).2 = none
    rw [Code.lower_of_frozen c hc]
    exact Code.lowerAll_of_frozen args hargs
  | member o _ => exact Code.lower_of_frozen o h
  | index o k =>
    obtain ⟨ho, hk⟩ := List.forall_mem_append.mp h
    change (k.lower chain (o.lower chain none).2).2 = none
    rw [Code.lower_of_frozen o ho]
    exact Code.lower_of_frozen k hk
  | array es => exact Code.lowerAll_of_frozen es h
  | binary _ a b =>
    obtain ⟨ha, hb⟩ := List.forall_mem_append.mp h
    change (b.lower chain (a.lower chain none).2).2 = none
    rw [Code.lower_of_frozen a ha]
    exact Code.lower_of_frozen b hb
  | lambda _ body => exact Stmt.lowerAll_of_frozen body h

theorem Code.lowerAll_of_frozen (cs : List Code) (h : chain.Frozen (Code.slotsAll cs)) :
    (Code.lowerAll chain cs none).2 = none := by
  cases cs with
  | nil => rfl
  | cons c cs =>
    obtain ⟨hc, hcs⟩ := List.forall_mem_append.mp h
    change (Code.lowerAll chain cs (c.lower chain none).2).2 = none
    rw [Code.lower_of_frozen c hc]
    exact Code.lowerAll_of_frozen cs hcs

theorem Stmt.lower_of_frozen (t : Stmt) (h : chain.Frozen t.slots) :
    (t.lower chain none).2 = none := by
  cases t with
  | letBind _ c | exportConst _ c | expr c | ret c => exact Code.lower_of_frozen c h
  | retVoid => rfl

theorem Stmt.lowerAll_of_frozen (ts : List Stmt) (h : chain.Frozen (Stmt.slotsAll ts)) :
    (Stmt.lowerAll chain ts none).2 = none := by
  cases ts with
  | nil => rfl
  | cons t ts =>
    obtain ⟨ht, hts⟩ := List.forall_mem_append.mp h
    change (Stmt.lowerAll chain ts (t.lower chain none).2).2 = none
    rw [Stmt.lower_of_frozen t ht]
    exact Stmt.lowerAll_of_frozen ts hts

end

mutual

/-- Code without slots is lowered already. -/
theorem Code.lower_of_slots (c : Code) (s : Option Fault) (h : c.slots = []) :
    c.lower chain s = (c, s) := by
  cases c with
  | lit | ident => rfl
  | comptime a => cases h
  | call c args =>
    obtain ⟨hc, hargs⟩ := List.append_eq_nil_iff.mp h
    change (Code.call (c.lower chain s).1 _, _) = _
    rw [Code.lower_of_slots c s hc, Code.lowerAll_of_slots args s hargs]
  | member o name =>
    change (Code.member (o.lower chain s).1 name, _) = _
    rw [Code.lower_of_slots o s h]
  | index o k =>
    obtain ⟨ho, hk⟩ := List.append_eq_nil_iff.mp h
    change (Code.index (o.lower chain s).1 _, _) = _
    rw [Code.lower_of_slots o s ho, Code.lower_of_slots k s hk]
  | array es =>
    change (Code.array (Code.lowerAll chain es s).1, _) = _
    rw [Code.lowerAll_of_slots es s h]
  | binary op a b =>
    obtain ⟨ha, hb⟩ := List.append_eq_nil_iff.mp h
    change (Code.binary op (a.lower chain s).1 _, _) = _
    rw [Code.lower_of_slots a s ha, Code.lower_of_slots b s hb]
  | lambda params body =>
    change (Code.lambda params (Stmt.lowerAll chain body s).1, _) = _
    rw [Stmt.lowerAll_of_slots body s h]

theorem Code.lowerAll_of_slots (cs : List Code) (s : Option Fault) (h : Code.slotsAll cs = []) :
    Code.lowerAll chain cs s = (cs, s) := by
  cases cs with
  | nil => rfl
  | cons c cs =>
    obtain ⟨hc, hcs⟩ := List.append_eq_nil_iff.mp h
    change ((c.lower chain s).1 :: _, _) = _
    rw [Code.lower_of_slots c s hc, Code.lowerAll_of_slots cs s hcs]

theorem Stmt.lower_of_slots (t : Stmt) (s : Option Fault) (h : t.slots = []) :
    t.lower chain s = (t, s) := by
  cases t with
  | letBind name c =>
    change (Stmt.letBind name (c.lower chain s).1, _) = _
    rw [Code.lower_of_slots c s h]
  | exportConst name c =>
    change (Stmt.exportConst name (c.lower chain s).1, _) = _
    rw [Code.lower_of_slots c s h]
  | expr c =>
    change (Stmt.expr (c.lower chain s).1, _) = _
    rw [Code.lower_of_slots c s h]
  | ret c =>
    change (Stmt.ret (c.lower chain s).1, _) = _
    rw [Code.lower_of_slots c s h]
  | retVoid => rfl

theorem Stmt.lowerAll_of_slots (ts : List Stmt) (s : Option Fault) (h : Stmt.slotsAll ts = []) :
    Stmt.lowerAll chain ts s = (ts, s) := by
  cases ts with
  | nil => rfl
  | cons t ts =>
    obtain ⟨ht, hts⟩ := List.append_eq_nil_iff.mp h
    change ((t.lower chain s).1 :: _, _) = _
    rw [Stmt.lower_of_slots t s ht, Stmt.lowerAll_of_slots ts s hts]

end

end Lower

section Resolve

variable {d : Draft} {r : Resolved} {chain : Chain} {p : Program}

theorem settleProgram_eq_ok_iff {q : Program} : settleProgram chain p = .ok q ↔
    (∀ x ∈ Stmt.itemsAll p, chain.unsettled? x = none) ∧ q = Stmt.mapItemsAll chain.endOf p := by
  rw [← List.findSome?_eq_none_iff, settleProgram_eq]
  cases (Stmt.itemsAll p).findSome? chain.unsettled? with
  | some e => simp
  | none =>
    simp only [Except.ok.injEq, true_and]
    exact eq_comm

/-- A program that could be lowered and settled, by what stands in place of its slots and items. -/
theorem Draft.settledProgram_eq_subst (h : d.settledProgram chain = .ok p) :
    p = Stmt.substAll (chain.endOf ∘ chain.slotItem) chain.endOf d.program ∧
      (∀ a ∈ Stmt.slotsAll d.program, chain.readSlot a = .resolved (chain.slotItem a) ∧
        chain.Ends (chain.slotItem a) (chain.endOf (chain.slotItem a))) ∧
      ∀ x ∈ Stmt.itemsAll d.program, chain.Ends x (chain.endOf x) := by
  unfold Draft.settledProgram at h
  split at h
  · cases h
  · rename_i q hq
    obtain ⟨hlowered, hfrozen⟩ :=
      Stmt.lowerAll_eq_substAll d.program none (congrArg Prod.snd hq)
    have hqs : q = Stmt.substAll chain.slotItem id d.program :=
      (congrArg Prod.fst hq).symm.trans hlowered
    obtain ⟨hsettles, rfl⟩ := settleProgram_eq_ok_iff.mp h
    have hends {x : Item} (hx : (∃ a ∈ Stmt.slotsAll d.program, chain.slotItem a = x) ∨
        ∃ y ∈ Stmt.itemsAll d.program, id y = x) : chain.Ends x (chain.endOf x) := by
      rw [hqs] at hsettles
      exact Chain.ends_endOf (hsettles x ((Stmt.mem_itemsAll_substAll _ _ _).mpr hx))
    refine ⟨?_, fun a ha => ⟨hfrozen a ha, hends (.inl ⟨a, ha, rfl⟩)⟩,
      fun x hx => hends (.inr ⟨x, hx, rfl⟩)⟩
    rw [hqs, Stmt.mapItemsAll_substAll]
    rfl

/-- A program can be lowered and settled if its slots are frozen, and they and its items settle. -/
theorem Draft.settledProgram_of_settles (hs : chain.Frozen (Stmt.slotsAll d.program))
    (ha : ∀ a ∈ Stmt.slotsAll d.program, chain.unsettled? (chain.slotItem a) = none)
    (hx : ∀ x ∈ Stmt.itemsAll d.program, chain.unsettled? x = none) :
    d.settledProgram chain =
      .ok (Stmt.substAll (chain.endOf ∘ chain.slotItem) chain.endOf d.program) := by
  have hfault : (lowerProgram chain d.program).2 = none := Stmt.lowerAll_of_frozen d.program hs
  unfold Draft.settledProgram
  split
  · rename_i e he
    rw [he] at hfault
    cases hfault
  · rename_i q hq
    obtain ⟨hlowered, -⟩ := Stmt.lowerAll_eq_substAll d.program none (congrArg Prod.snd hq)
    have hqs : q = Stmt.substAll chain.slotItem id d.program :=
      (congrArg Prod.fst hq).symm.trans hlowered
    refine settleProgram_eq_ok_iff.mpr ⟨fun x hmem => ?_, ?_⟩
    · rw [hqs] at hmem
      obtain ⟨a, hslot, rfl⟩ | ⟨y, hitem, rfl⟩ := (Stmt.mem_itemsAll_substAll _ _ _).mp hmem
      · exact ha a hslot
      · exact hx y hitem
    · rw [hqs, Stmt.mapItemsAll_substAll]
      rfl

/-- Where the resolve stage succeeds, it has put the end of the chain of its frozen item for each
slot of the program, at any depth, and for each literal item the end of its own chain, which is the
item itself unless it is a placeholder. Nothing else has changed, and nothing is left to lower. -/
theorem resolveStage_substitutes {log log' : Log} (h : resolveStage.run d log = (.ok r, log')) :
    ∃ n w, World.resolve d.start = (.ok n, w) ∧
      (∃ slot item, r.program = Stmt.substAll slot item d.program ∧
        (∀ a ∈ Stmt.slotsAll d.program,
          ∃ x, w.chain.readSlot a = .resolved x ∧ w.chain.Ends x (slot a)) ∧
        ∀ x ∈ Stmt.itemsAll d.program,
          w.chain.Ends x (item x) ∧ ((∀ p, x ≠ .hole p) → item x = x)) ∧
      ∀ chain, lowerProgram chain r.program = (r.program, none) := by
  obtain ⟨ds, hresolve⟩ := Stage.exists_of_ofFallible h
  obtain ⟨n, w, -, hw, hp, -⟩ := Draft.exists_of_resolve hresolve
  obtain ⟨hsubst, hslots, hitems⟩ := Draft.settledProgram_eq_subst hp
  exact ⟨n, w, hw,
    ⟨_, _, hsubst, fun a ha => ⟨_, hslots a ha⟩, fun x hx => ⟨hitems x hx, Chain.endOf_known⟩⟩,
    fun chain => Stmt.lowerAll_of_slots _ none (Draft.settledProgram_slots hp)⟩

/-- A slot that stands for a second, which stands for a third, and a function that uses the
first. -/
def relay : Draft where
  name := "relay"
  groups := [⟨0, "values", [.lazySlot ⟨0, 1⟩, .lazySlot ⟨0, 2⟩, .lit (.bool true)]⟩]
  program := [.exportConst "f" (.lambda ["x"] [.ret (.call (.ident "x") [.comptime ⟨0, 0⟩])]),
    .expr (.lit (.hole (.slot ⟨0, 1⟩)))]

def relayed : Resolved where
  name := "relay"
  heap := {}
  program := [.exportConst "f" (.lambda ["x"] [.ret (.call (.ident "x") [.lit (.bool true)])]),
    .expr (.lit (.bool true))]

/-- The slot in the body of the function leads through the two others to the literal. -/
theorem resolveStage_substitutes_relay :
    ∃ log n w x, resolveStage.run relay {} = (.ok relayed, log) ∧
      World.resolve relay.start = (.ok n, w) ∧
      w.chain.readSlot ⟨0, 0⟩ = .resolved x ∧ w.chain.Ends x (.bool true) ∧
      lowerProgram [] relayed.program = (relayed.program, none) := by
  have h : resolveStage.run relay {} = (.ok relayed,
      ⟨[⟨.info, "relay: resolved in 1 sweeps, 0 placeholders installed", none⟩], []⟩) := by cbv
  obtain ⟨n, w, hw, ⟨slot, item, hsubst, hslots, -⟩, hlower⟩ := resolveStage_substitutes h
  obtain ⟨x, hread, hends⟩ := hslots ⟨0, 0⟩ List.mem_cons_self
  have hleaves : .bool true = slot ⟨0, 0⟩ ∧ .bool true = item (.hole (.slot ⟨0, 1⟩)) := by
    simpa [relayed, relay, Stmt.substAll, Stmt.subst, Code.subst, Code.substAll] using hsubst
  rw [← hleaves.1] at hends
  exact ⟨_, n, w, x, h, hw, hread, hends, hlower []⟩

end Resolve

end Comptime
