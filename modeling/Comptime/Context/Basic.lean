import Comptime.Outcome

/-! Contexts: the slots and variables an expression can see. A context is a chain of frames.
Look-ups go from the innermost frame outwards, and only the innermost frame changes. -/
namespace Comptime

/-- A slot with its expression. Once it has an item it is frozen. -/
structure Slot where
  expr : Expr
  item : Option Item := none

def Slot.isOpen (s : Slot) : Bool := s.item.isNone

/-- The slots of a registered group. -/
structure GroupState where
  id : GroupId
  label : String
  slots : Array Slot

/-- How a variable gets its value. -/
inductive Binding
  | item (value : Item)
  | slot (addr : SlotAddr)

/-- The groups come in the order of their ids, and no two have the same. -/
def GroupState.Ascending (groups : List GroupState) : Prop :=
  groups.Pairwise fun g k => g.id < k.id

instance (groups : List GroupState) : Decidable (GroupState.Ascending groups) :=
  inferInstanceAs (Decidable (groups.Pairwise fun g k => g.id < k.id))

theorem GroupState.ascending_nil : GroupState.Ascending [] := .nil

/-- A later binding of a variable hides an earlier one. -/
@[ext]
structure Frame where
  groups : List GroupState := []
  vars : List (VarId × Binding) := []
  qualified : List GenericId := []
  ascending : GroupState.Ascending groups := by first | exact GroupState.ascending_nil | decide

abbrev Chain := List Frame

structure Context where
  frame : Frame := {}
  outer : Chain := []

def GroupState.ofGroup (g : Group) : GroupState :=
  ⟨g.id, g.label, (g.slots.map fun e => { expr := e }).toArray⟩

/-- The frozen items of a group, in order. -/
def GroupState.items (g : GroupState) : List Item := g.slots.toList.filterMap Slot.item

def GroupState.describe (g : GroupState) (slot : Nat) : String :=
  g.label ++ "[" ++ toString slot ++ "]"

namespace Frame

def insert (g : GroupState) : List GroupState → List GroupState
  | [] => [g]
  | h :: hs =>
    if g.id < h.id then g :: h :: hs
    else if g.id = h.id then g :: hs
    else h :: insert g hs

theorem mem_insert {g k : GroupState} {groups : List GroupState} (hk : k ∈ insert g groups) :
    k = g ∨ k ∈ groups := by
  induction groups with
  | nil => exact Or.inl (List.mem_singleton.mp hk)
  | cons j groups ih =>
    rw [insert] at hk
    split at hk
    · exact List.mem_cons.mp hk
    · split at hk
      · exact (List.mem_cons.mp hk).imp_right (List.mem_cons_of_mem j)
      · rcases List.mem_cons.mp hk with rfl | hk
        · exact Or.inr List.mem_cons_self
        · exact (ih hk).imp_right (List.mem_cons_of_mem j)

theorem ascending_insert (g : GroupState) {groups : List GroupState}
    (h : GroupState.Ascending groups) : GroupState.Ascending (insert g groups) := by
  induction groups with
  | nil => exact List.pairwise_singleton _ _
  | cons k groups ih =>
    obtain ⟨hk, hgs⟩ := List.pairwise_cons.mp h
    rw [insert]
    split
    · rename_i hlt
      refine List.pairwise_cons.mpr ⟨fun j hj => ?_, h⟩
      rcases List.mem_cons.mp hj with rfl | hj
      · exact hlt
      · exact Nat.lt_trans hlt (hk j hj)
    · rename_i hnlt
      split
      · rename_i heq
        refine List.pairwise_cons.mpr ⟨fun j hj => ?_, hgs⟩
        rw [heq]
        exact hk j hj
      · rename_i hne
        refine List.pairwise_cons.mpr ⟨fun j hj => ?_, ih hgs⟩
        rcases mem_insert hj with rfl | hj
        · exact Nat.lt_of_le_of_ne (Nat.le_of_not_lt hnlt) (Ne.symm hne)
        · exact hk j hj

/-- Registers a group with all its slots open. A group of the same id is dropped. -/
def addGroup (f : Frame) (g : Group) : Frame :=
  { f with
    groups := insert (.ofGroup g) f.groups
    ascending := ascending_insert _ f.ascending }

def declare (f : Frame) (v : VarId) (b : Binding) : Frame :=
  { f with vars := (v, b) :: f.vars }

/-- Binds the parameters of a generic. -/
def bindParams (f : Frame) (site : Generic) (args : List Item) : Except Fault Frame :=
  if args.length = site.params.length then
    let f := (site.params.zip args).foldl (fun f p => f.declare p.1 (.item p.2)) f
    .ok { f with qualified := site.id :: f.qualified }
  else .error (.arity site.name site.params.length args.length)

def group? (f : Frame) (id : GroupId) : Option GroupState :=
  f.groups.find? fun g => g.id == id

/-- The frozen items, in order of group and slot. -/
def items (f : Frame) : List Item :=
  f.groups.flatMap GroupState.items

def openSlots (f : Frame) : Nat :=
  f.groups.foldr (fun g n => g.slots.toList.countP Slot.isOpen + n) 0

/-- The first open slot, by its label. -/
def firstOpen? (f : Frame) : Option String :=
  f.groups.findSome? fun g => (g.slots.findIdx? Slot.isOpen).map g.describe

end Frame

namespace Chain

def group? (chain : Chain) (id : GroupId) : Option GroupState :=
  chain.findSome? (·.group? id)

def readSlot (chain : Chain) (a : SlotAddr) : Outcome Item :=
  match Chain.group? chain a.group with
  | none => .failed (.noGroup a.group)
  | some g =>
    match g.slots[a.slot]? with
    | some ⟨_, some item⟩ => .resolved item
    | some ⟨_, none⟩ => .pending
    | none => .failed (.noSlot a)

/-- All items of a group, once all its slots are frozen. -/
def readGroup (chain : Chain) (id : GroupId) : Outcome (List Item) :=
  match Chain.group? chain id with
  | none => .failed (.noGroup id)
  | some g =>
    if g.slots.any Slot.isOpen then .pending else .resolved g.items

/-- The value of a variable, or `none` if no frame declares it. A binding to a slot is read in the
frame that holds the binding. -/
def readVar : Chain → VarId → Outcome (Option Item)
  | [], _ => .resolved none
  | f :: chain, v =>
    match f.vars.lookup v with
    | some (.item x) => .resolved (some x)
    | some (.slot a) => some <$> readSlot (f :: chain) a
    | none => readVar chain v

def isQualified (chain : Chain) (id : GenericId) : Bool :=
  chain.any fun f => f.qualified.contains id

/-- What a placeholder stands for. -/
def read (chain : Chain) : Placeholder → Outcome Item
  | .slot a => readSlot chain a
  | .var v => do
    match ← readVar chain v with
    | some x => return x
    | none => return .absent (showVar v ++ " is not qualified")

end Chain

namespace Context

def chain (ctx : Context) : Chain := ctx.frame :: ctx.outer

/-- A new innermost frame. -/
def child (ctx : Context) : Context := { outer := ctx.chain }

end Context

/-- Checks that every item is known. One that can never be known is a fault; one that may become
known later is a reason to wait. -/
def validate (items : List Item) : Outcome Unit :=
  match items.findSome? fun | .absent reason => some reason | _ => none with
  | some reason => .failed (.absent reason)
  | none => if items.any Item.isUnknown then .pending else .resolved ()

end Comptime
