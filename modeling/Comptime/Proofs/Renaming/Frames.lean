import Comptime.Proofs.Evaluation.Frames
import Comptime.Proofs.Renaming.Basic

/-! Renaming of frames. The items in their slots and variables get new names, and whatever is done
to a frame is done alike to the renamed one. -/
namespace Comptime

def Slot.rename (r : Renaming) (s : Slot) : Slot := { s with item := s.item.map (Item.rename r) }

def GroupState.rename (r : Renaming) (g : GroupState) : GroupState :=
  { g with slots := g.slots.map (Slot.rename r) }

theorem GroupState.ascending_rename (r : Renaming) {groups : List GroupState}
    (h : Ascending groups) : Ascending (groups.map (GroupState.rename r)) :=
  List.pairwise_map.mpr h

def Binding.rename (r : Renaming) : Binding → Binding
  | .item x => .item (x.rename r)
  | .slot a => .slot a

/-- Only items are renamed. The slots themselves keep their addresses. -/
def Frame.rename (r : Renaming) (f : Frame) : Frame where
  groups := f.groups.map (GroupState.rename r)
  vars := f.vars.map fun b => (b.1, b.2.rename r)
  qualified := f.qualified
  ascending := GroupState.ascending_rename r f.ascending

variable {r : Renaming}

theorem Slot.isOpen_rename (s : Slot) : (s.rename r).isOpen = s.isOpen := by
  simp [Slot.rename, Slot.isOpen]

theorem GroupState.rename_ofGroup (g : Group) : (ofGroup g).rename r = ofGroup g := by
  simp [GroupState.rename, ofGroup, Slot.rename]

theorem GroupState.rename_freeze (g : GroupState) (i : Nat) (x : Item) :
    GroupState.rename r { g with slots := g.slots.modify i fun s => { s with item := some x } } =
      { g.rename r with
        slots := (g.rename r).slots.modify i fun s => { s with item := some (x.rename r) } } := by
  simp only [GroupState.rename, GroupState.mk.injEq, true_and]
  refine Array.ext_getElem? fun j => ?_
  simp only [Array.getElem?_map, Array.getElem?_modify]
  split <;> cases g.slots[j]? <;> simp [Slot.rename]

namespace Frame

variable {f f' : Frame}

theorem rename_eq_self (hf : f.All (fun _ => True) fun x => x.rename r = x) : f.rename r = f := by
  have hgroups : f.groups.map (GroupState.rename r) = f.groups := by
    rw [List.map_congr_left fun g hg => ?_, List.map_id]
    have hslots : g.slots.map (Slot.rename r) = g.slots := by
      rw [Array.map_congr_left fun s hs => ?_, Array.map_id]
      obtain ⟨e, item⟩ := s
      cases item with
      | none => rfl
      | some x => exact congrArg (Slot.mk e ∘ some) (hf.item hg hs rfl)
    rw [GroupState.rename, hslots, id]
  have hvars : (f.vars.map fun b => (b.1, b.2.rename r)) = f.vars := by
    rw [List.map_congr_left fun b hb => ?_, List.map_id]
    obtain ⟨v, b⟩ := b
    cases b with
    | slot a => rfl
    | item x => exact congrArg (Prod.mk v ∘ Binding.item) (hf.var hb)
  exact Frame.ext hgroups hvars rfl

theorem group?_rename (id : GroupId) :
    (f.rename r).group? id = (f.group? id).map (GroupState.rename r) :=
  List.find?_map ..

theorem slot?_rename (a : SlotAddr) :
    (f.rename r).slot? a = (f.slot? a).map (Slot.rename r) := by
  simp only [slot?, group?_rename]
  cases f.group? a.group with
  | none => rfl
  | some g => exact Array.getElem?_map

theorem isOpen_rename (a : SlotAddr) : (f.rename r).isOpen a = f.isOpen a := by
  simp only [isOpen_eq, slot?_rename]
  cases f.slot? a with
  | none => rfl
  | some s => exact s.isOpen_rename

theorem lookup_rename (v : VarId) :
    (f.rename r).vars.lookup v = (f.vars.lookup v).map (Binding.rename r) := by
  simp only [rename]
  induction f.vars with
  | nil => rfl
  | cons b vars ih =>
    rw [List.map_cons, List.lookup_cons, List.lookup_cons]
    cases v == b.1
    · exact ih
    · rfl

theorem firstOpen?_rename : (f.rename r).firstOpen? = f.firstOpen? := by
  have hopen : Slot.isOpen ∘ Slot.rename r = Slot.isOpen := funext Slot.isOpen_rename
  simp only [firstOpen?, rename, List.findSome?_map]
  congr 1
  funext g
  simp only [Function.comp_apply, GroupState.rename, Array.findIdx?_map, hopen]
  rfl

theorem freeze_rename (a : SlotAddr) (x : Item) :
    (f.freeze a x).rename r = (f.rename r).freeze a (x.rename r) := by
  have hgroups : ∀ groups : List GroupState, (freezeIn a x groups).map (GroupState.rename r) =
      freezeIn a (x.rename r) (groups.map (GroupState.rename r)) := by
    intro groups
    induction groups with
    | nil => rfl
    | cons g groups ih =>
      rw [List.map_cons, freezeIn, freezeIn, ← ih]
      change _ = if g.id == a.group then _ else _
      split
      · rw [List.map_cons, GroupState.rename_freeze]
      · rfl
  simp only [freeze, rename, hgroups]

theorem addGroup_rename (g : Group) : (f.addGroup g).rename r = (f.rename r).addGroup g := by
  have hgroups : ∀ groups : List GroupState,
      (insert (.ofGroup g) groups).map (GroupState.rename r) =
        insert (.ofGroup g) (groups.map (GroupState.rename r)) := by
    intro groups
    induction groups with
    | nil => exact congrArg (fun k => [k]) (GroupState.rename_ofGroup g)
    | cons k groups ih =>
      rw [List.map_cons, insert, insert, ← ih]
      change _ = if (GroupState.ofGroup g).id < k.id then _ else
        if (GroupState.ofGroup g).id = k.id then _ else _
      split
      · rw [List.map_cons, GroupState.rename_ofGroup, List.map_cons]
      · split
        · rw [List.map_cons, GroupState.rename_ofGroup]
        · rfl
  simp only [addGroup, rename, hgroups]

theorem bindParams_rename (site : Generic) (args : List Item) :
    (f.rename r).bindParams site (args.map (Item.rename r)) =
      (f.bindParams site args).map (Frame.rename r) := by
  have hfold : ∀ (vs : List VarId) (xs : List Item) (f : Frame),
      ((vs.zip xs).foldl (fun f p => f.declare p.1 (.item p.2)) f).rename r =
        (vs.zip (xs.map (Item.rename r))).foldl (fun f p => f.declare p.1 (.item p.2))
          (f.rename r) := by
    intro vs
    induction vs with
    | nil => exact fun _ _ => rfl
    | cons v vs ih =>
      intro xs f
      cases xs with
      | nil => rfl
      | cons x xs => exact ih xs (f.declare v (.item x))
  unfold bindParams
  rw [List.length_map]
  split
  · rw [← hfold]
    rfl
  · rfl

theorem enter_rename (site : Generic) (args : List Item) :
    (f.rename r).enter site (args.map (Item.rename r)) =
      (f.enter site args).map (Frame.rename r) := by
  have hgroups : ∀ (gs : List Group) (f : Frame),
      (gs.foldl addGroup f).rename r = gs.foldl addGroup (f.rename r) := by
    intro gs
    induction gs with
    | nil => exact fun _ => rfl
    | cons g gs ih =>
      intro f
      rw [List.foldl_cons, List.foldl_cons, ih, addGroup_rename]
  rw [enter, enter, ← hgroups, bindParams_rename]

end Frame

end Comptime
