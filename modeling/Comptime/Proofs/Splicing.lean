import Comptime.Heap.Splice
import Comptime.Proofs.Refilling
import Comptime.Proofs.Visiting

/-! Overwriting a child. A place can be overwritten just if it is listed among the places of the
object, and then the first child that is listed with it is replaced; literals that are counted while
a body is rewritten have the numbers that they have in the list. Nothing else changes, and a write
that fails changes nothing at all. -/
namespace Comptime

section Deliveries

variable {n k : Nat} {x y : Item} {r : Option Item} {items : List Item}

theorem afterOffer_deliver :
    afterOffer (deliver n) y ⟨k, r⟩ =
      if k = n then (r.getD y, ⟨k + 1, none⟩) else (y, ⟨k + 1, r⟩) := by
  rw [afterOffer_apply]
  unfold deliver
  split <;> rfl

/-- Literals are passed by if nothing is left to hand over, or if the one that is meant is not among
them. -/
theorem mapM_deliver_of_not_mem (h : r = none ∨ n < k ∨ k + items.length ≤ n) :
    items.mapM (afterOffer (deliver n)) ⟨k, r⟩ = (items, ⟨k + items.length, r⟩) := by
  induction items generalizing k with
  | nil => rfl
  | cons y items ih =>
    rw [List.length_cons] at h
    have hrest : r = none ∨ n < k + 1 ∨ k + 1 + items.length ≤ n := by
      refine h.imp_right fun h => ?_
      omega
    have hfirst : afterOffer (deliver n) y ⟨k, r⟩ = (y, ⟨k + 1, r⟩) := by
      rw [afterOffer_deliver]
      split
      · rcases h with rfl | h
        · rfl
        · omega
      · rfl
    rw [mapM_afterOffer_cons, hfirst, ih hrest, List.length_cons, Nat.add_right_comm, Nat.add_assoc]

/-- The literal that is meant gets the item, and the others stay. -/
theorem mapM_deliver_of_mem (hle : k ≤ n) (hlt : n < k + items.length) :
    items.mapM (afterOffer (deliver n)) ⟨k, some x⟩ =
      (items.set (n - k) x, ⟨k + items.length, none⟩) := by
  induction items generalizing k with
  | nil => exact absurd hlt (Nat.not_lt.mpr hle)
  | cons y items ih =>
    rw [List.length_cons] at hlt
    rw [mapM_afterOffer_cons, afterOffer_deliver, List.length_cons, ← Nat.add_assoc,
      Nat.add_right_comm]
    split
    · rename_i hk
      rw [mapM_deliver_of_not_mem (Or.inl rfl), hk, Nat.sub_self, List.set_cons_zero,
        Option.getD_some]
    · rename_i hk
      have hsub : n - k = n - (k + 1) + 1 := by omega
      rw [ih (by omega) (by omega), hsub, List.set_cons_succ]

/-- Counting the literals of a body while it is rewritten reaches the one with that number in the
list of its literals, if there is one. -/
theorem Stmt.offerAll_deliver (x : Item) (body : List Stmt) (i : Nat) :
    Stmt.offerAll (deliver i) body ⟨0, some x⟩ =
      if i < (Stmt.itemsAll body).length then
        (Stmt.setItemAll x body i, ⟨(Stmt.itemsAll body).length, none⟩)
      else (body, ⟨(Stmt.itemsAll body).length, some x⟩) := by
  rw [Stmt.offerAll_apply]
  split
  · rename_i hlt
    rw [mapM_deliver_of_mem (Nat.zero_le i) (by omega), Nat.sub_zero, Nat.zero_add,
      Stmt.setItemAll_eq_refillAll]
  · rename_i hge
    rw [mapM_deliver_of_not_mem (by omega), Nat.zero_add, Stmt.refillAll_itemsAll]

/-- Overwriting is setting the child, and leaves an object without the place as it is. -/
theorem Object.overwrite_eq (x : Item) (o : Object) (place : Place) :
    o.overwrite x place = ((o.setChild? x place).isSome, (o.setChild? x place).getD o) := by
  unfold Object.overwrite
  split
  · rename_i f i
    rw [Stmt.offerAll_deliver, Object.setChild?]
    split <;> rfl
  · split
    · rename_i ho
      rw [ho]
      rfl
    · rename_i ho
      rw [ho]
      rfl

end Deliveries

namespace Heap

variable {heap heap' : Heap} {h : Handle} {o o' : Object} {x : Item} {place : Place}

theorem ext_get? (he : ∀ k, heap.get? k = heap'.get? k) : heap = heap' := by
  obtain ⟨objects⟩ := heap
  obtain ⟨objects'⟩ := heap'
  exact congrArg Heap.mk (Array.ext_getElem? he)

theorem children_of_get? (ho : heap.get? h = some o) : heap.children h = o.children := by
  rw [children, ho, Option.elim_some]

theorem get?_set_self (ho : heap.get? h = some o) : (heap.set h o').get? h = some o' := by
  rw [get?_set, if_pos rfl, ho, Option.map_some]

theorem setChild_of_setChild?_none (ho : heap.get? h = some o)
    (hset : o.setChild? x place = none) :
    heap.setChild h place x = .error (o.noChild h place) := by
  unfold setChild Object.noChild
  simp only [ho, hset]
  split <;> simp_all

theorem splice_of_setChild? (ho : heap.get? h = some o) (hset : o.setChild? x place = some o') :
    heap.splice h place x = (.ok (), heap.set h o') := by
  simp [splice, ho, Object.overwrite_eq, hset]

theorem splice_of_setChild?_none (ho : heap.get? h = some o)
    (hset : o.setChild? x place = none) :
    heap.splice h place x = (.error (o.noChild h place), heap) := by
  simp [splice, ho, Object.overwrite_eq, hset, set_self ho]

/-- A heap is the one after a write if the children and the shape of the object are as they should
be, and all other objects are as they were. -/
theorem eq_set_iff (ho : heap.get? h = some o) :
    heap' = heap.set h o' ↔ heap'.children h = o'.children ∧
      (heap'.get? h).map Object.shape = some o'.shape ∧
      heap'.size = heap.size ∧ ∀ k, k ≠ h → heap'.get? k = heap.get? k := by
  constructor
  · rintro rfl
    refine ⟨children_of_get? (get?_set_self ho), ?_, size_set, fun k hk => ?_⟩
    · rw [get?_set_self ho, Option.map_some]
    · rw [get?_set, if_neg (Ne.symm hk)]
  · rintro ⟨hchildren, hshape, -, hothers⟩
    obtain ⟨p, hp, hsame⟩ := Option.map_eq_some_iff.mp hshape
    rw [children_of_get? hp] at hchildren
    obtain rfl := Object.eq_of_shape hsame (congrArg (List.map Prod.snd) hchildren)
    refine ext_get? fun k => ?_
    by_cases hk : k = h
    · rw [hk, hp, get?_set_self ho]
    · rw [hothers k hk, get?_set, if_neg (Ne.symm hk)]

/-- The write and its answer without a heap for a fault agree. -/
theorem setChild_eq_splice (heap : Heap) (h : Handle) (place : Place) (x : Item) :
    heap.setChild h place x = (heap.splice h place x).1.map fun _ => (heap.splice h place x).2 := by
  cases ho : heap.get? h with
  | none =>
    simp only [setChild, splice, ho]
    rfl
  | some o =>
    cases hset : o.setChild? x place with
    | some o' =>
      rw [setChild_of_setChild? ho hset, splice_of_setChild? ho hset]
      rfl
    | none =>
      rw [setChild_of_setChild?_none ho hset, splice_of_setChild?_none ho hset]
      rfl

/-- What a write does. It succeeds just if the place is among those of the children. Then the first
child at the place is replaced, and this together with what stays, the rest of the object and all
other objects, is all there is to say of the heap. A write that fails leaves the heap as it was. -/
theorem splice_overwrites_first (hlt : h < heap.size) (place : Place) (x : Item) :
    ((heap.splice h place x).1 = .ok () ↔ place ∈ (heap.children h).map Prod.fst) ∧
    ((heap.splice h place x).1 = .ok () → ∀ heap', heap' = (heap.splice h place x).2 ↔
      heap'.children h = setFirst x place (heap.children h) ∧
      (heap'.get? h).map Object.shape = (heap.get? h).map Object.shape ∧
      heap'.size = heap.size ∧ ∀ k, k ≠ h → heap'.get? k = heap.get? k) ∧
    (∀ e, (heap.splice h place x).1 = .error e → (heap.splice h place x).2 = heap) ∧
    heap.setChild h place x =
      (heap.splice h place x).1.map fun _ => (heap.splice h place x).2 := by
  obtain ⟨o, ho⟩ := exists_get? hlt
  have hchildren := children_of_get? ho
  cases hset : o.setChild? x place with
  | some o' =>
    obtain ⟨hfirst, hshape⟩ := Object.setChild?_eq_some hset
    have hsplice := splice_of_setChild? ho hset
    refine ⟨?_, fun _ heap' => ?_, ?_, setChild_eq_splice heap h place x⟩
    · rw [hsplice, hchildren]
      exact iff_of_true rfl hfirst.mem
    · rw [hsplice, eq_set_iff ho, hfirst.eq, hshape, hchildren, ho, Option.map_some]
    · rw [hsplice]
      rintro e ⟨⟩
  | none =>
    have hnot : place ∉ o.children.map Prod.fst := by
      intro hmem
      obtain ⟨o', ho'⟩ := Object.exists_setChild? x hmem
      rw [hset] at ho'
      cases ho'
    have hsplice := splice_of_setChild?_none ho hset
    refine ⟨?_, ?_, fun e _ => ?_, setChild_eq_splice heap h place x⟩
    · rw [hsplice, hchildren]
      exact iff_of_false (by rintro ⟨⟩) hnot
    · rw [hsplice]
      rintro ⟨⟩
    · rw [hsplice]

/-- A function that captures two items under one name and has literals inside a function of its
own. -/
def nestedHeap : Heap :=
  ⟨#[.function ⟨"f", ["p"],
    [.letBind "a" (.lit .null),
      .ret (.lambda ["q"] [.expr (.call (.ident "g") [.lit (.bool true), .lit .null]), .retVoid])],
    [("c", .null), ("c", .bool true)]⟩]⟩

/-- The last of three literals is overwritten inside the inner function, a fourth is not there, and
of the two captures the first is overwritten. -/
theorem splice_overwrites_first_nested :
    (nestedHeap.splice 0 (.bodyItem 2) (.ref 0)).1 = .ok () ∧
      (nestedHeap.splice 0 (.bodyItem 2) (.ref 0)).2.children 0 =
        [(.capture "c", .null), (.capture "c", .bool true), (.bodyItem 0, .null),
          (.bodyItem 1, .bool true), (.bodyItem 2, .ref 0)] ∧
      (nestedHeap.splice 0 (.bodyItem 3) (.ref 0)).1 ≠ .ok () ∧
      (nestedHeap.splice 0 (.capture "c") (.ref 0)).2.children 0 =
        [(.capture "c", .ref 0), (.capture "c", .bool true), (.bodyItem 0, .null),
          (.bodyItem 1, .bool true), (.bodyItem 2, .null)] := by
  have hlt : 0 < nestedHeap.size := by decide
  have hlast := splice_overwrites_first hlt (.bodyItem 2) (.ref 0)
  have hover := splice_overwrites_first hlt (.bodyItem 3) (.ref 0)
  have hcapture := splice_overwrites_first hlt (.capture "c") (.ref 0)
  have hdone := hlast.1.mpr (by decide)
  have hcaptured := hcapture.1.mpr (by decide)
  refine ⟨hdone, ((hlast.2.1 hdone _).mp rfl).1, fun he => ?_,
    ((hcapture.2.1 hcaptured _).mp rfl).1⟩
  exact absurd (hover.1.mp he) (by decide)

end Heap

end Comptime
