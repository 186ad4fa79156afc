import Comptime.Eval
import Comptime.Proofs.Renaming.Membership
import Comptime.Proofs.Renaming.Rendering

/-! Operators and member access look at items only up to their names. -/
namespace Comptime

variable {heap heap' : Heap} {x y : Item}

theorem TypeValue.generic?_rename (ren : Renaming) (t : TypeValue) :
    (t.rename ren).generic? = t.generic?.map ren.generic := by
  obtain ⟨kind, applications⟩ := t
  cases kind <;> rfl

theorem TypeValue.rename_apply (ren : Renaming) (t : TypeValue) (args : Option (List Item)) :
    (t.apply args).rename ren = (t.rename ren).apply (args.map (List.map (Item.rename ren))) := by
  unfold TypeValue.apply
  rw [TypeValue.generic?_rename]
  cases t.generic? with
  | none => rfl
  | some site => simp [TypeValue.rename, Application.rename]

theorem Object.member?_rename (ren : Renaming) (o : Object) (name : String) :
    (o.rename ren).member? name = (o.member? name).map (Item.rename ren) := by
  cases o with
  | record features fields => exact lookup_rename name fields
  | feature key own fields => exact lookup_rename name fields
  | _ => rfl

theorem Object.within_member? {D : Handle → Prop} {o : Object} {name : String}
    (ho : ∀ y ∈ o.children.map Prod.snd, y.Within D) (hx : o.member? name = some x) :
    x.Within D := by
  cases o with
  | record features fields =>
    simp only [Object.children, List.map_append, List.forall_mem_append] at ho
    exact lookup_within (fun y hy => ho.2 y (mem_named_items.mpr hy)) hx
  | feature key own fields =>
    simp only [Object.children, List.map_cons, List.forall_mem_cons] at ho
    exact lookup_within (fun y hy => ho.2 y (mem_named_items.mpr hy)) hx
  | _ => cases hx

section Operators

/-- What an operator does with operands that it has no rule of its own for. -/
def Op.fallback (op : Op) (x y : Item) : Except Fault Item :=
  if x.isUnknown || y.isUnknown then .error (.operands op x y)
  else
    match op with
    | .eq => .ok (.bool (x.same y))
    | .ne => .ok (.bool (!x.same y))
    | op => .error (.operands op x y)

/-- Renaming leaves primitives as they are. -/
theorem Item.rename_eq_or (ren : Renaming) (x : Item) :
    x.rename ren = x ∨ (∃ h, x = .ref h) ∨ ∃ p, x = .hole p := by
  cases x with
  | ref h => exact Or.inr (Or.inl ⟨h, rfl⟩)
  | hole p => exact Or.inr (Or.inr ⟨p, rfl⟩)
  | _ => exact Or.inl rfl

theorem Op.apply_left (op : Op) (y : Item) (hx : (∃ h, x = .ref h) ∨ ∃ p, x = .hole p) :
    op.apply x y = op.fallback x y := by
  rcases hx with ⟨h, rfl⟩ | ⟨p, rfl⟩ <;> cases op <;> rfl

theorem Op.apply_right (op : Op) (x : Item) (hy : (∃ h, y = .ref h) ∨ ∃ p, y = .hole p) :
    op.apply x y = op.fallback x y := by
  rcases hy with ⟨h, rfl⟩ | ⟨p, rfl⟩ <;> cases op <;> cases x <;> rfl

theorem Item.rename_ref_or (ren : Renaming) (hx : (∃ h, x = .ref h) ∨ ∃ p, x = .hole p) :
    (∃ h, x.rename ren = .ref h) ∨ ∃ p, x.rename ren = .hole p := by
  rcases hx with ⟨h, rfl⟩ | ⟨p, rfl⟩
  · exact Or.inl ⟨_, rfl⟩
  · exact Or.inr ⟨_, rfl⟩

/-- The results agree: both are faults, or both the same primitive. -/
def SameResult (a b : Except Fault Item) : Prop :=
  Agrees True (fun z z' => z' = z ∧ (∀ h, z ≠ .ref h) ∧ ∀ p, z ≠ .hole p) a b

theorem Op.fallback_rename {ren : Renaming} (op : Op)
    (hsame : (x.rename ren).same (y.rename ren) = x.same y) :
    SameResult (op.fallback x y) (op.fallback (x.rename ren) (y.rename ren)) := by
  unfold Op.fallback
  rw [Item.isUnknown_rename, Item.isUnknown_rename, hsame]
  split
  · trivial
  · cases op with
    | eq | ne => exact ⟨rfl, by simp, by simp⟩
    | _ => trivial

theorem Op.sameResult_self (op : Op) (x y : Item) : SameResult (op.apply x y) (op.apply x y) := by
  have hfall : SameResult (op.fallback x y) (op.fallback x y) := by
    unfold Op.fallback
    split
    · trivial
    · cases op with
      | eq | ne => exact ⟨rfl, by simp, by simp⟩
      | _ => trivial
  unfold Op.apply
  split
  case h_10 => exact hfall
  all_goals exact ⟨rfl, by simp, by simp⟩

/-- Operators look at items only up to their names. -/
theorem Op.apply_rename {D : Handle → Prop} {ren : Renaming} (hm : heap.Mirrors ren D heap')
    (hs : Function.Injective ren.slot) (hx : x.Within D) (hy : y.Within D) (op : Op) :
    SameResult (op.apply x y) (op.apply (x.rename ren) (y.rename ren)) := by
  have hfall := op.fallback_rename (hm.same hs hx hy)
  rcases x.rename_eq_or ren with hfix | hmove
  · rcases y.rename_eq_or ren with hfix' | hmove
    · rw [hfix, hfix']
      exact op.sameResult_self x y
    · rw [op.apply_right x hmove, op.apply_right _ (Item.rename_ref_or ren hmove)]
      exact hfall
  · rw [op.apply_left y hmove, op.apply_left _ (Item.rename_ref_or ren hmove)]
    exact hfall

end Operators

end Comptime
