import Comptime.Proofs.Evaluation.Soundness
import Mathlib

/-! Evaluation appends. It stores new objects behind the old ones and changes none of these, and a
new object refers only to objects before it. So it leaves no dangling handle, nor a cycle that was
not there before, whether it resolves, waits or fails. -/
namespace Comptime

/-- Items name stored objects, those in expressions one of the first `n`. Any slot may be read
lazily. -/
def Law.stored (n : Nat) : Law :=
  { Law.below n with
    lazy := fun _ => True
    hole := fun {_} _ h he => by cases he }

/-- The second heap is the first with objects appended. -/
structure Heap.Appends (heap heap' : Heap) : Prop where
  grows : heap.Grows heap'
  /-- An appended object refers to those before it, -/
  backward : ∀ {i k}, heap.size ≤ i → k ∈ heap'.refs i → k < i
  /-- and the literals in the generics that it names refer to the old ones. -/
  literals : ∀ {i o g}, heap.size ≤ i → heap'.get? i = some o → g ∈ o.generics →
    Admits (Law.stored heap.size).Allows (GenericOf.parts true g)
  closed : heap'.Closed
  cycles : ∀ {h}, heap'.Reach (heap'.refs h) h → heap.Reach (heap.refs h) h

/-- A computation on the heap appends to it, and what it yields is stored. -/
structure Eval.Appends (heap : Heap) (result : Outcome Item × Heap) : Prop where
  heap : heap.Appends result.2
  item : ∀ x, result.1 = .resolved x → x.Within (· < result.2.size)

namespace Heap

variable {heap heap' : Heap} {h k : Handle} {n : Nat}

theorem Obeys.lt_of_mem_refs (hh : heap.Obeys (.stored n)) (hk : k ∈ heap.refs h) :
    k < heap.size := by
  obtain ⟨o, ho⟩ := exists_get? (Heap.lt_of_mem_refs hk)
  rw [refs, items_of_get? ho, mem_refsOf] at hk
  exact (hh.object ho).held _ hk k rfl

theorem Extends.lt_of_mem_refs (he : heap.Extends (.stored n) heap') (hle : heap.size ≤ h)
    (hk : k ∈ heap'.refs h) : k < h := by
  obtain ⟨o, ho⟩ := exists_get? (Heap.lt_of_mem_refs hk)
  rw [refs, items_of_get? ho, mem_refsOf] at hk
  exact (he.fresh hle ho).held _ hk k rfl

/-- References go back from an appended object, so it does not lead to itself; and old objects lead
to old objects only. -/
theorem Extends.reach_self (hh : heap.Obeys (.stored n)) (he : heap.Extends (.stored n) heap')
    (hr : heap'.Reach (heap'.refs h) h) : heap.Reach (heap.refs h) h := by
  have hold : ∀ {i j}, i < heap.size → j ∈ heap'.refs i → j < heap.size := by
    intro i j hi hj
    rw [he.grows.refs hi] at hj
    exact hh.lt_of_mem_refs hj
  by_cases hlt : h < heap.size
  · have hmem : ∀ {k}, heap'.Reach (heap'.refs h) k →
        k < heap.size ∧ heap.Reach (heap.refs h) k := by
      intro k hk
      induction hk with
      | start hm =>
        have hm' := hm
        rw [he.grows.refs hlt] at hm'
        exact ⟨hold hlt hm, .start hm'⟩
      | step _ hm ih =>
        have hm' := hm
        rw [he.grows.refs ih.1] at hm'
        exact ⟨hold ih.1 hm, .step ih.2 hm'⟩
    exact (hmem hr).2
  · have hle : heap.size ≤ h := Nat.le_of_not_lt hlt
    have hback : h < h := by
      refine hr.mem_of_closed (p := (· < h)) (fun k hk => he.lt_of_mem_refs hle hk) ?_
      intro i hi j hj
      by_cases hilt : i < heap.size
      · exact Nat.lt_of_lt_of_le (hold hilt hj) hle
      · exact Nat.lt_trans (he.lt_of_mem_refs (Nat.le_of_not_lt hilt) hj) hi
    exact absurd hback (Nat.lt_irrefl h)

theorem Extends.appends (hh : heap.Obeys (.stored heap.size))
    (he : heap.Extends (.stored heap.size) heap') : heap.Appends heap' where
  grows := he.grows
  backward := he.lt_of_mem_refs
  literals hle ho hg := (he.fresh hle ho).generics _ hg
  closed _ _ _ hk := (hh.extends he).lt_of_mem_refs hk
  cycles := he.reach_self hh

end Heap

/-- A computation that keeps handles stored appends to the heap. -/
theorem Eval.Keeps.appends {heap : Heap} {c : Eval Item}
    (hc : Eval.Keeps (.stored heap.size) heap.size (Law.stored heap.size).holds c)
    (hh : heap.Obeys (.stored heap.size)) : Eval.Appends heap (c heap) := by
  obtain ⟨he, hx⟩ := hc heap hh (Nat.le_refl _)
  exact ⟨he.appends hh, hx⟩

theorem GroupOf.keeps_evalSlotWith {l : Law} {m : Nat} {q : Qualifier} {chain : Chain}
    (hq : Qualifier.Keeps l q) (hc : Chain.Obeys l m chain) {g : Group}
    (hg : Admits l.Allows (GroupOf.parts true g)) (slot : Nat) :
    Eval.Keeps l m l.holds (g.evalSlotWith q chain slot) := by
  unfold GroupOf.evalSlotWith
  cases he : g.slots[slot]? with
  | none => exact Eval.keeps_fail
  | some e =>
    apply Expr.keeps_evalWith hq hc
    obtain ⟨id, label, slots⟩ := g
    intro p hp
    exact hg p (Expr.mem_partsAll.mpr ⟨e, List.mem_of_getElem? he, hp⟩)

theorem Frame.Obeys.frozen {l : Law} {m : Nat} {f : Frame} {a : SlotAddr} {x : Item}
    (hf : f.Obeys l m) (hx : f.Frozen a x) : l.holds m x := by
  obtain ⟨e, hs⟩ := hx
  obtain ⟨g, hg, hi⟩ := Option.bind_eq_some_iff.mp hs
  exact hf.item (List.mem_of_find?_eq_some hg) (Array.mem_of_getElem? hi) rfl

/-- If all handles of a world are in range, down to the literals in its expressions and generics,
then evaluating an expression, specializing a type, evaluating a group or one slot of it, and
sweeping append to the heap, however they end; and what they yield or freeze is in range. -/
theorem World.appends_backwards {w : World} (hw : w.Obeys (.stored w.heap.size)) :
    (∀ e : Expr, Admits (Law.stored w.heap.size).Allows (e.parts true) →
      Eval.Appends w.heap (e.eval w.chain w.heap)) ∧
    (∀ (t : TypeValue) (args : Option (List Item)),
      (Object.type t).Obeys (.stored w.heap.size) w.heap.size →
      (∀ xs, args = some xs → ∀ x ∈ xs, x.Within (· < w.heap.size)) →
      Eval.Appends w.heap (t.qualify w.chain args w.heap)) ∧
    (∀ g : Group, Admits (Law.stored w.heap.size).Allows (GroupOf.parts true g) →
      Eval.Appends w.heap (g.eval w.chain w.heap) ∧
      ∀ slot, Eval.Appends w.heap (g.evalSlot slot w.chain w.heap)) ∧
    w.heap.Appends (World.sweep w).2.heap ∧
    ∀ a x, (World.sweep w).2.context.frame.Frozen a x →
      x.Within (· < (World.sweep w).2.heap.size) := by
  have hq : Qualifier.Keeps (.stored w.heap.size) (qualifyWithin depthLimit) :=
    Qualifier.keeps_qualifyWithin depthLimit
  have hsweep := Attempts.start.sweep (q := qualifyWithin depthLimit) (w := w)
  obtain ⟨hobeys, hext⟩ := hsweep.obeys hq hw
  refine ⟨fun e he => ?_, fun t args ht ha => ?_, fun g hg => ⟨?_, fun slot => ?_⟩,
    hext.appends hw.heap, fun a x hx => ?_⟩
  · exact (Expr.keeps_evalWith hq hw.chain he).appends hw.heap
  · exact (hq hw.chain ht ha).appends hw.heap
  · exact (GroupOf.keeps_evalWith hq hw.chain hg).appends hw.heap
  · exact (GroupOf.keeps_evalSlotWith hq hw.chain hg slot).appends hw.heap
  · exact (hobeys.chain.frame List.mem_cons_self).frozen hx

/-- The type of the lists of what the first object is. -/
def World.listing : Generic :=
  ⟨0, "Listing", [], [], ⟨9, "body", [.type (.listOf (.lit (.ref 0)))]⟩⟩

/-- A list that holds itself, and a group that fails after it has abandoned a list, waited for
itself and specialized a type. -/
def World.hoarding : World where
  context := { frame := { groups := [⟨0, "g", #[
    ⟨.seq [.seq [.lit (.ref 0)], .slot ⟨0, 1⟩], none⟩, ⟨.slot ⟨0, 1⟩, none⟩,
    ⟨.qualify (.lit (.ref 1)) none, none⟩, ⟨.binary .add (.lit .null) (.lit .null), none⟩]⟩] } }
  heap := ⟨#[.seq [.ref 0], .type { kind := .generic listing }]⟩

theorem World.hoarding_obeys : hoarding.Obeys (.stored hoarding.heap.size) where
  heap := by
    refine ⟨Nat.le_refl _, fun {h o} ho => ?_⟩
    have hlt : h < 2 := Heap.get?_lt ho
    interval_cases h
    · obtain rfl : Object.seq [.ref 0] = o := Option.some.inj ho
      refine Object.obeys_of_held (by simp) fun x hx => ?_
      cases List.mem_singleton.mp hx
      exact (Law.stored _).ref (by decide)
    · obtain rfl : Object.type { kind := .generic listing } = o := Option.some.inj ho
      refine ⟨fun x hx => (by cases hx), fun g hg p hp => ?_⟩
      cases List.mem_singleton.mp hg
      simp only [listing, GenericOf.parts, GroupOf.partsAll, GroupOf.parts, Expr.partsAll,
        Expr.parts, TypeExpr.parts, List.nil_append, List.append_nil, List.mem_cons,
        List.not_mem_nil, or_false] at hp
      rcases hp with rfl | rfl
      · trivial
      · exact (Law.stored _).ref (by decide)
  chain := by
    refine ⟨Nat.le_refl _, fun {f} hf => ?_⟩
    cases List.mem_singleton.mp hf
    refine ⟨fun {g s x} hg hs hx => ?_, fun hv => by cases hv⟩
    cases List.mem_singleton.mp hg
    simp only [List.mem_toArray, List.mem_cons, List.not_mem_nil, or_false] at hs
    rcases hs with rfl | rfl | rfl | rfl <;> cases hx
  expr := by
    refine Frame.admitted_of_slots fun {g s} hg hs => ?_
    cases List.mem_singleton.mp hg
    simp only [List.mem_toArray, List.mem_cons, List.not_mem_nil, or_false] at hs
    rcases hs with rfl | rfl | rfl | rfl <;>
      simp [Expr.parts, Expr.partsAll, Expr.partsArgs, Law.Allows, Law.stored, Law.below,
        Item.Within, hoarding, Heap.size]

theorem World.appends_backwards_hoarding :
    (World.sweep hoarding).1 = .error (.operands .add .null .null) ∧
      (World.sweep hoarding).2.heap = ⟨#[.seq [.ref 0], .type { kind := .generic listing },
        .seq [.ref 0], .type { kind := .listOf (.ref 0) }]⟩ ∧
      hoarding.heap.Appends (World.sweep hoarding).2.heap ∧
      Item.Within (· < (World.sweep hoarding).2.heap.size) (.ref 3) := by
  have happends := World.appends_backwards hoarding_obeys
  refine ⟨by cbv, by cbv, happends.2.2.2.1, happends.2.2.2.2 ⟨0, 2⟩ (.ref 3) ?_⟩
  exact ⟨.qualify (.lit (.ref 1)) none, by cbv⟩

end Comptime
