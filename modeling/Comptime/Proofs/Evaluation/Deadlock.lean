import Comptime.Proofs.Evaluation.Attempts
import Comptime.Proofs.Evaluation.Laws
import Mathlib

/-! When sweeps stall, the slots left open are those that wait for each other in a circle, and those
that wait for such a slot. -/
namespace Comptime

open Relation

/-- The expression itself neither looks up a member nor specializes a type. -/
def Expr.isDirect : Expr → Bool
  | .member .. | .qualify .. => false
  | _ => true

/-- The slot that the expression itself waits for, given what variables stand for. A slot that is
read lazily is not waited for. -/
def Expr.strictRead? (vars : List (VarId × Binding)) : Expr → Option SlotAddr
  | .slot a => some a
  | .var v =>
    match vars.lookup v with
    | some (.slot a) => some a
    | _ => none
  | _ => none

namespace Frame

/-- The slots among the parts of expressions that are waited for. -/
def strictReads (f : Frame) (parts : List Expr) : List SlotAddr :=
  parts.filterMap (Expr.strictRead? f.vars)

/-- The expression of the first slot waits for the second. -/
def Awaits (f : Frame) (a b : SlotAddr) : Prop :=
  ∃ e, f.expr? a = some e ∧ b ∈ f.strictReads (e.parts false)

/-- Every slot of the set waits for one of the set. -/
def Locked (f : Frame) (slots : Set SlotAddr) : Prop := ∀ a ∈ slots, ∃ b ∈ slots, f.Awaits a b

variable {f : Frame}

theorem strictReads_cons {e : Expr} {parts : List Expr} (he : e.strictRead? f.vars = none) :
    f.strictReads (e :: parts) = f.strictReads parts :=
  List.filterMap_cons_none he

theorem strictReads_append {parts more : List Expr} :
    f.strictReads (parts ++ more) = f.strictReads parts ++ f.strictReads more :=
  List.filterMap_append

end Frame

/-- How a computation depends on the slots it reads: it resolves only if all of them are frozen, it
waits only if one of them is open, and it never fails for want of an item. -/
structure Eval.Needs {α : Type} (f : Frame) (reads : List SlotAddr) (c : Eval α) : Prop where
  resolved : ∀ heap a heap', c heap = (.resolved a, heap') → ∀ b ∈ reads, ∃ x, f.Frozen b x
  pending : ∀ heap heap', c heap = (.pending, heap') → ∃ b ∈ reads, f.isOpen b
  failed : ∀ heap e heap', c heap = (.failed e, heap') → e.report.category ≠ "unresolved"

theorem Chain.category_of_readSlot {chain : Chain} {a : SlotAddr} {e : Fault}
    (hr : chain.readSlot a = .failed e) :
    e.report.category = "unknown-group" := by
  rcases Chain.readSlot_failed hr with rfl | rfl <;> rfl

namespace Eval

variable {α β : Type} {f : Frame} {reads more : List SlotAddr} {c : Eval α} {k : α → Eval β}

/-- A computation that never waits, and fails only for some other reason, needs no slot. -/
theorem needs_nothing (hp : ∀ heap heap', c heap ≠ (.pending, heap'))
    (hf : ∀ heap e heap', c heap = (.failed e, heap') → e.report.category ≠ "unresolved") :
    Needs f [] c where
  resolved _ _ _ _ _ hb := nomatch hb
  pending heap heap' h := absurd h (hp heap heap')
  failed := hf

theorem needs_pure (a : α) : Needs f [] (pure a) :=
  needs_nothing (fun _ _ h => nomatch h) fun _ _ _ h => nomatch h

theorem needs_fail {e : Fault} (he : e.report.category ≠ "unresolved") :
    Needs f [] (Run.fail e : Eval α) := by
  refine needs_nothing (fun _ _ h => nomatch h) fun heap e' heap' h => ?_
  cases h
  exact he

theorem needs_alloc (o : Object) : Needs f [] (Eval.alloc o) :=
  needs_nothing (fun _ _ h => nomatch h) fun _ _ _ h => nomatch h

theorem needs_state : Needs f [] (Run.state : Eval Heap) :=
  needs_nothing (fun _ _ h => nomatch h) fun _ _ _ h => nomatch h

theorem Needs.bind (hc : Needs f reads c) (hk : ∀ a, Needs f more (k a)) :
    Needs f (reads ++ more) (c >>= k) := by
  constructor
  · intro heap b heap' h
    rw [Run.bind_apply] at h
    match hr : c heap with
    | (.resolved a, heap₁) =>
      rw [hr] at h
      intro s hs
      rcases List.mem_append.mp hs with hs | hs
      · exact hc.resolved _ _ _ hr s hs
      · exact (hk a).resolved _ _ _ h s hs
    | (.pending, heap₁) =>
      rw [hr] at h
      cases h
    | (.failed e, heap₁) =>
      rw [hr] at h
      cases h
  · intro heap heap' h
    rw [Run.bind_apply] at h
    match hr : c heap with
    | (.resolved a, heap₁) =>
      rw [hr] at h
      obtain ⟨b, hb, ho⟩ := (hk a).pending _ _ h
      exact ⟨b, List.mem_append_right _ hb, ho⟩
    | (.pending, heap₁) =>
      obtain ⟨b, hb, ho⟩ := hc.pending _ _ hr
      exact ⟨b, List.mem_append_left _ hb, ho⟩
    | (.failed e, heap₁) =>
      rw [hr] at h
      cases h
  · intro heap e heap' h
    rw [Run.bind_apply] at h
    match hr : c heap with
    | (.resolved a, heap₁) =>
      rw [hr] at h
      exact (hk a).failed _ _ _ h
    | (.pending, heap₁) =>
      rw [hr] at h
      cases h
    | (.failed e', heap₁) =>
      rw [hr] at h
      cases h
      exact hc.failed _ _ _ hr

/-- What comes first may need nothing itself. -/
theorem Needs.before (hc : Needs f [] c) (hk : ∀ a, Needs f more (k a)) : Needs f more (c >>= k) :=
  hc.bind hk

theorem Needs.after (hc : Needs f reads c) (hk : ∀ a, Needs f [] (k a)) :
    Needs f reads (c >>= k) := by
  have h := hc.bind hk
  rwa [List.append_nil] at h

theorem Needs.map (hc : Needs f reads c) (g : α → β) : Needs f reads (g <$> c) := by
  have heq : g <$> c = c >>= fun a => pure (g a) := map_eq_pure_bind g c
  rw [heq]
  exact hc.after fun a => needs_pure (g a)

theorem needs_readSlot (f : Frame) (a : SlotAddr) :
    Needs f [a] (Run.lift (Chain.readSlot [f] a)) where
  resolved heap x heap' h := by
    intro b hb
    cases List.mem_singleton.mp hb
    exact ⟨x, Chain.frozen_of_readSlot (congrArg Prod.fst h)⟩
  pending heap heap' h :=
    ⟨a, List.mem_singleton_self a, Chain.isOpen_of_readSlot (congrArg Prod.fst h)⟩
  failed heap e heap' h := by
    rw [Chain.category_of_readSlot (congrArg Prod.fst h)]
    decide

end Eval

section Run

variable {q : Qualifier} {f : Frame}

theorem Value.needs_store (v : Value) : Eval.Needs f [] v.store := by
  cases v with
  | item x => exact Eval.needs_pure x
  | type t => exact Eval.needs_alloc (.type t)

theorem Value.needs_asType (v : Value) : Eval.Needs f [] v.asType := by
  cases v with
  | type t => exact Eval.needs_pure t
  | item x =>
    refine Eval.needs_state.before fun heap => ?_
    cases heap.type? x with
    | none => exact Eval.needs_fail (by simp [Fault.report, Report.category])
    | some t => exact Eval.needs_pure t

theorem Op.needs_apply (op : Op) (a b : Item) :
    Eval.Needs f [] (Run.lift (.ofExcept (op.apply a b)) : Eval Item) := by
  cases h : op.apply a b with
  | ok x => exact Eval.needs_pure x
  | error e =>
    refine Eval.needs_fail ?_
    rw [Op.apply_error h]
    simp [Fault.report, Report.category]

/-- A variable needs the slot it stands for, if it stands for one. -/
theorem needs_readVar (f : Frame) (v : VarId) :
    Eval.Needs f (f.strictReads [.var v]) (Run.lift (Chain.readVar [f] v)) := by
  rw [Chain.readVar]
  cases hv : f.vars.lookup v with
  | none =>
    have hreads : f.strictReads [.var v] = [] := by
      simp [Frame.strictReads, Expr.strictRead?, hv]
    rw [hreads]
    exact Eval.needs_pure none
  | some b =>
    cases b with
    | item x =>
      have hreads : f.strictReads [.var v] = [] := by
        simp [Frame.strictReads, Expr.strictRead?, hv]
      rw [hreads]
      exact Eval.needs_pure (some x)
    | slot a =>
      have hreads : f.strictReads [.var v] = [a] := by
        simp [Frame.strictReads, Expr.strictRead?, hv]
      rw [hreads]
      have hlift : (Run.lift (some <$> Chain.readSlot [f] a) : Eval (Option Item)) =
          some <$> Run.lift (Chain.readSlot [f] a) := by
        cases Chain.readSlot [f] a <;> rfl
      dsimp only
      rw [hlift]
      exact (Eval.needs_readSlot f a).map some

/-- A lazy read gives a placeholder in place of waiting. -/
theorem needs_lazySlot (f : Frame) (a : SlotAddr) :
    Eval.Needs f [] ((Expr.lazySlot a).run q [f]) := by
  rw [Expr.run]
  cases hr : Chain.readSlot [f] a with
  | resolved x => exact Eval.needs_pure (Value.item x)
  | pending => exact Eval.needs_pure (Value.item (.hole (.slot a)))
  | failed e =>
    refine Eval.needs_fail ?_
    rw [Chain.category_of_readSlot hr]
    decide

mutual

theorem Expr.needs_run {e : Expr} (he : ∀ p ∈ e.parts false, p.isDirect) :
    Eval.Needs f (f.strictReads (e.parts false)) (e.run q [f]) := by
  cases e with
  | lit x => exact Eval.needs_pure (Value.item x)
  | var v =>
    refine (needs_readVar f v).after fun y => ?_
    cases y with
    | none => exact Eval.needs_pure _
    | some x => exact Eval.needs_pure _
  | slot a => exact (Eval.needs_readSlot f a).map _
  | lazySlot a => exact needs_lazySlot f a
  | seq es =>
    simp only [Expr.parts, List.forall_mem_cons] at he
    rw [Expr.parts, Frame.strictReads_cons rfl]
    exact (Expr.needs_runAll he.2).after fun xs => (Eval.needs_alloc _).map _
  | record es fs =>
    simp only [Expr.parts, List.forall_mem_cons, List.forall_mem_append] at he
    rw [Expr.parts, Frame.strictReads_cons rfl, Frame.strictReads_append]
    refine (Expr.needs_runAll he.2.1).bind fun xs => ?_
    exact (Expr.needs_runFields he.2.2).after fun ys => (Eval.needs_alloc _).map _
  | anchor name => exact (Eval.needs_alloc _).map _
  | feature name e fs =>
    simp only [Expr.parts, List.forall_mem_cons, List.forall_mem_append] at he
    rw [Expr.parts, Frame.strictReads_cons rfl, Frame.strictReads_append]
    refine (Expr.needs_run he.2.1).bind fun v => (Value.needs_store v).before fun x => ?_
    exact (Expr.needs_runFields he.2.2).after fun ys => (Eval.needs_alloc _).map _
  | type t =>
    simp only [Expr.parts, List.forall_mem_cons] at he
    rw [Expr.parts, Frame.strictReads_cons rfl]
    exact (TypeExpr.needs_run he.2).map _
  | apply e es =>
    simp only [Expr.parts, List.forall_mem_cons, List.forall_mem_append] at he
    rw [Expr.parts, Frame.strictReads_cons rfl, Frame.strictReads_append]
    refine (Expr.needs_runArgs he.2.1).bind fun args => ?_
    refine (Expr.needs_run he.2.2).after fun v => (Value.needs_asType v).before fun t => ?_
    cases t.generic? with
    | none => exact Eval.needs_fail (by simp [Fault.report, Report.category])
    | some site => exact (Eval.needs_alloc _).map _
  | qualify e es => cases he _ List.mem_cons_self
  | function name params body fs =>
    simp only [Expr.parts, List.forall_mem_cons] at he
    rw [Expr.parts, Frame.strictReads_cons rfl]
    exact (Expr.needs_runFields he.2).after fun ys => (Eval.needs_alloc _).map _
  | member e name => cases he _ List.mem_cons_self
  | contains e d =>
    simp only [Expr.parts, List.forall_mem_cons, List.forall_mem_append] at he
    rw [Expr.parts, Frame.strictReads_cons rfl, Frame.strictReads_append]
    refine (Expr.needs_run he.2.1).bind fun v => (Value.needs_asType v).before fun t => ?_
    refine (Expr.needs_run he.2.2).after fun w => (Value.needs_store w).before fun x => ?_
    exact Eval.needs_state.before fun heap => Eval.needs_pure _
  | binary op a b =>
    simp only [Expr.parts, List.forall_mem_cons, List.forall_mem_append] at he
    rw [Expr.parts, Frame.strictReads_cons rfl, Frame.strictReads_append]
    refine (Expr.needs_run he.2.1).bind fun v => (Value.needs_store v).before fun x => ?_
    refine (Expr.needs_run he.2.2).after fun w => (Value.needs_store w).before fun y => ?_
    exact (Op.needs_apply op x y).map _

theorem Expr.needs_runAll {es : List Expr} (he : ∀ p ∈ Expr.partsAll false es, p.isDirect) :
    Eval.Needs f (f.strictReads (Expr.partsAll false es)) (Expr.runAll q [f] es) := by
  cases es with
  | nil => exact Eval.needs_pure _
  | cons e es =>
    simp only [Expr.partsAll, List.forall_mem_append] at he
    rw [Expr.partsAll, Frame.strictReads_append]
    refine (Expr.needs_run he.1).bind fun v => (Value.needs_store v).before fun x => ?_
    exact (Expr.needs_runAll he.2).after fun xs => Eval.needs_pure _

theorem Expr.needs_runFields {fs : List (String × Expr)}
    (he : ∀ p ∈ Expr.partsFields false fs, p.isDirect) :
    Eval.Needs f (f.strictReads (Expr.partsFields false fs)) (Expr.runFields q [f] fs) := by
  match fs with
  | [] => exact Eval.needs_pure _
  | (name, e) :: fs =>
    simp only [Expr.partsFields, List.forall_mem_append] at he
    rw [Expr.partsFields, Frame.strictReads_append]
    refine (Expr.needs_run he.1).bind fun v => (Value.needs_store v).before fun x => ?_
    exact (Expr.needs_runFields he.2).after fun ys => Eval.needs_pure _

theorem Expr.needs_runArgs {es : Option (List Expr)}
    (he : ∀ p ∈ Expr.partsArgs false es, p.isDirect) :
    Eval.Needs f (f.strictReads (Expr.partsArgs false es)) (Expr.runArgs q [f] es) := by
  match es with
  | none => exact Eval.needs_pure _
  | some es =>
    simp only [Expr.partsArgs] at he
    exact (Expr.needs_runAll he).map _

theorem TypeExpr.needs_run {t : TypeExpr} (ht : ∀ p ∈ t.parts false, p.isDirect) :
    Eval.Needs f (f.strictReads (t.parts false)) (t.run q [f]) := by
  cases t with
  | listOf e =>
    simp only [TypeExpr.parts] at ht
    refine (Expr.needs_run ht).after fun v => (Value.needs_store v).before fun x => ?_
    exact Eval.needs_pure _
  | feature e =>
    simp only [TypeExpr.parts] at ht
    refine (Expr.needs_run ht).after fun v => (Value.needs_store v).before fun x => ?_
    exact Eval.needs_pure _
  | object es fs =>
    simp only [TypeExpr.parts, List.forall_mem_append] at ht
    rw [TypeExpr.parts, Frame.strictReads_append]
    refine (Expr.needs_runAll ht.1).bind fun xs => ?_
    exact (Expr.needs_runFields ht.2).after fun ys => Eval.needs_pure _
  | _ => exact Eval.needs_pure _

end

theorem Expr.needs_evalWith {e : Expr} (he : ∀ p ∈ e.parts false, p.isDirect) :
    Eval.Needs f (f.strictReads (e.parts false)) (e.evalWith q [f]) :=
  (Expr.needs_run he).after fun v => Value.needs_store v

end Run

/-- In a finite set whose members all lead to another one, every member leads to a cycle. -/
theorem exists_cycle_of_finite {α : Type} {r : α → α → Prop} {s : Set α} (hfin : s.Finite)
    (hs : ∀ a ∈ s, ∃ b ∈ s, r a b) {a : α} (ha : a ∈ s) :
    ∃ b, ReflTransGen r a b ∧ TransGen r b b := by
  choose! next hmem hnext using hs
  let walk : ℕ → α := fun n => next^[n] a
  have hwalk : ∀ n, walk n ∈ s := by
    intro n
    induction n with
    | zero => exact ha
    | succ n ih =>
      simp only [walk, Function.iterate_succ_apply'] at ih ⊢
      exact hmem _ ih
  have hstep : ∀ n, r (walk n) (walk (n + 1)) := by
    intro n
    simp only [walk, Function.iterate_succ_apply']
    exact hnext _ (hwalk n)
  have hpath : ∀ i k, TransGen r (walk i) (walk (i + k + 1)) := by
    intro i k
    induction k with
    | zero => exact .single (hstep i)
    | succ k ih => exact ih.tail (hstep (i + k + 1))
  have hfrom : ∀ n, ReflTransGen r a (walk n) := by
    intro n
    induction n with
    | zero => exact .refl
    | succ n ih => exact ih.tail (hstep n)
  obtain ⟨i, j, hij, heq⟩ := Set.Finite.exists_lt_map_eq_of_forall_mem hwalk hfin
  obtain ⟨k, rfl⟩ : ∃ k, j = i + k + 1 := ⟨j - i - 1, by omega⟩
  have hcycle := hpath i k
  rw [← heq] at hcycle
  exact ⟨walk i, hfrom i, hcycle⟩

namespace Frame

variable {f : Frame} {a b : SlotAddr}

/-- What leads to a cycle waits for something that does. -/
theorem locked_cycles (f : Frame) :
    f.Locked {a | ∃ b, ReflTransGen f.Awaits a b ∧ TransGen f.Awaits b b} := by
  rintro a ⟨b, hab, hb⟩
  rcases hab.cases_head with rfl | ⟨c, hac, hcb⟩
  · obtain ⟨c, hac, hca⟩ := TransGen.head'_iff.mp hb
    exact ⟨c, ⟨a, hca, hb⟩, hac⟩
  · exact ⟨c, ⟨b, hcb, hb⟩, hac⟩

theorem finite_open (f : Frame) : {a | f.isOpen a}.Finite := by
  refine (List.finite_toSet (addresses f.groups)).subset fun a ha => ?_
  obtain ⟨e, hs⟩ := isOpen_iff.mp ha
  exact mem_addresses hs

theorem not_isOpen_of_frozen {x : Item} (hx : f.Frozen a x) : ¬f.isOpen a := by
  intro ho
  obtain ⟨e, hs⟩ := hx
  obtain ⟨e', hs'⟩ := isOpen_iff.mp ho
  rw [hs] at hs'
  cases hs'

theorem exists_open_slot (ho : f.isOpen a) :
    ∃ g ∈ f.groups, g.id = a.group ∧ ∃ s, g.slots[a.slot]? = some s ∧ s.isOpen := by
  obtain ⟨e, hs⟩ := isOpen_iff.mp ho
  obtain ⟨g, hg, hi⟩ := Option.bind_eq_some_iff.mp hs
  exact ⟨g, List.mem_of_find?_eq_some hg, by simpa using List.find?_some hg, _, hi, rfl⟩

/-- The first open slot is the least one in the order of groups and slots. -/
theorem exists_least_of_firstOpen? {text : String} (h : f.firstOpen? = some text) :
    ∃ a g, f.isOpen a ∧ f.group? a.group = some g ∧ text = g.describe a.slot ∧
      ∀ b, f.isOpen b → a.group < b.group ∨ a.group = b.group ∧ a.slot ≤ b.slot := by
  obtain ⟨before, g, after, hgroups, hg, hbefore⟩ := List.findSome?_eq_some_iff.mp h
  obtain ⟨i, hi, rfl⟩ := Option.map_eq_some_iff.mp hg
  obtain ⟨hlt, hopen, hleast⟩ := Array.findIdx?_eq_some_iff_getElem.mp hi
  have hgroup : f.group? g.id = some g := group?_of_mem (by simp [hgroups])
  refine ⟨⟨g.id, i⟩, g, ?_, hgroup, rfl, fun b hb => ?_⟩
  · rw [isOpen_eq, slot?, hgroup, Option.bind_some, Array.getElem?_eq_getElem hlt]
    exact hopen
  · obtain ⟨k, hk, hid, s, hs, hso⟩ := exists_open_slot hb
    rw [hgroups, List.mem_append, List.mem_cons] at hk
    rcases hk with hk | rfl | hk
    · -- A group before has no open slot.
      have hnone := Option.map_eq_none_iff.mp (hbefore k hk)
      rw [Array.findIdx?_eq_none_iff] at hnone
      exact absurd hso (by simp [hnone s (Array.mem_of_getElem? hs)])
    · refine Or.inr ⟨hid, Nat.le_of_not_lt fun hji => ?_⟩
      have hjlt : b.slot < k.slots.size := Nat.lt_trans hji hlt
      rw [Array.getElem?_eq_getElem hjlt, Option.some.injEq] at hs
      exact hleast b.slot hji (hs ▸ hso)
    · left
      have hascending := f.ascending
      rw [GroupState.Ascending, hgroups, List.pairwise_append, List.pairwise_cons] at hascending
      exact hid ▸ hascending.2.1.1 k hk

theorem exists_firstOpen? (ho : f.isOpen a) : ∃ text, f.firstOpen? = some text := by
  cases h : f.firstOpen? with
  | some text => exact ⟨text, rfl⟩
  | none =>
    obtain ⟨g, hg, -, s, hs, hso⟩ := exists_open_slot ho
    have hnone := Option.map_eq_none_iff.mp (List.findSome?_eq_none_iff.mp h g hg)
    rw [Array.findIdx?_eq_none_iff] at hnone
    exact absurd hso (by simp [hnone s (Array.mem_of_getElem? hs)])

end Frame

namespace World

variable {q : Qualifier} {w₀ w : World} {a b : SlotAddr} {slots : Set SlotAddr}

theorem Attempts.awaits_iff (ht : Attempts q w₀ w) :
    w.context.frame.Awaits a b ↔ w₀.context.frame.Awaits a b := by
  simp only [Frame.Awaits, Frame.strictReads, ht.expr?, ht.vars]

/-- What is asked of a world whose slots are resolved: it is a root, and its expressions are
direct. -/
structure Direct (w : World) : Prop where
  outer : w.context.outer = []
  expr : ∀ {a e}, w.context.frame.expr? a = some e → ∀ p ∈ e.parts false, p.isDirect

theorem Attempts.direct (hw : w₀.Direct) (ht : Attempts q w₀ w) : w.Direct :=
  ⟨ht.outer.trans hw.outer, fun he => hw.expr ((ht.expr? _).symm.trans he)⟩

theorem Direct.needs (hw : w.Direct) {e : Expr} {item : Option Item}
    (hs : w.context.frame.slot? a = some ⟨e, item⟩) :
    Eval.Needs w.context.frame (w.context.frame.strictReads (e.parts false))
      (e.evalWith q w.chain) := by
  rw [World.chain, Context.chain, hw.outer]
  exact Expr.needs_evalWith (hw.expr (a := a) (by simp [Frame.expr?, hs]))

/-- The slots of a locked set stay open: the first of them to be frozen would have read another one
that was frozen before. -/
theorem Attempts.locked_open (hw : w₀.Direct) (hl : w₀.context.frame.Locked slots)
    (h₀ : ∀ a ∈ slots, w₀.context.frame.isOpen a) (ht : Attempts q w₀ w) :
    ∀ a ∈ slots, w.context.frame.isOpen a := by
  induction ht with
  | start => exact h₀
  | @next w a e ht hs ih =>
    intro b hb
    obtain ⟨x, heap, hev, h⟩ | ⟨heap, -, h⟩ := trySlot_cases (q := q) hs <;> rw [h]
    · rw [frame_freeze, isOpen_freeze hs]
      refine ⟨?_, ih b hb⟩
      rintro rfl
      obtain ⟨c, hc, hbc⟩ := hl b hb
      obtain ⟨e', he', hread⟩ := ht.awaits_iff.mpr hbc
      obtain rfl : e = e' := by simpa [Frame.expr?, hs] using he'
      obtain ⟨y, hy⟩ := ((ht.direct hw).needs hs).resolved _ _ _ hev c hread
      exact Frame.not_isOpen_of_frozen hy (ih c hc)
    · exact ih b hb

/-- When sweeps stall, each slot that is open waits for another one that is. -/
theorem Stalled.locked {complete : Bool} (hw : w₀.Direct) (hs : Stalled q w₀ w complete) :
    w₀.context.frame.Locked {a | w.context.frame.isOpen a} := by
  intro a ha
  obtain ⟨log, u, e, heap, hu, hctx, hslot, hev⟩ := hs.waits ha
  have hu := hu.attempts
  rw [← hctx] at hslot
  obtain ⟨b, hb, ho⟩ := ((hu.direct hw).needs hslot).pending _ _ hev
  refine ⟨b, ?_, ?_⟩
  · rw [hctx] at ho
    exact ho
  · exact hu.awaits_iff.mp ⟨e, by simp [Frame.expr?, hslot], hb⟩

end World

theorem Fault.text_stuck (slot : String) : (Fault.stuck slot).report.text =
    "unresolved: cannot resolve comptime expression " ++ slot := by
  have hwords : "unresolved: cannot resolve comptime expression " =
      "unresolved" ++ ": " ++ "cannot resolve comptime expression " := by decide
  rw [hwords, String.append_assoc]
  rfl

namespace Draft

variable {d : Draft} {n : Nat} {w : World}

theorem direct_start (hd : ∀ g ∈ d.groups, ∀ e ∈ g.slots, ∀ p ∈ e.parts false, p.isDirect) :
    d.start.Direct := by
  refine ⟨rfl, fun {a e} he => ?_⟩
  obtain ⟨s, hs, rfl⟩ := Option.map_eq_some_iff.mp he
  obtain ⟨-, g, hg, hmem⟩ := d.slot?_frame hs
  exact hd g hg _ hmem

theorem open_of_locked {slots : Set SlotAddr} (hl : d.frame.Locked slots) :
    ∀ a ∈ slots, d.frame.isOpen a := by
  intro a ha
  obtain ⟨b, -, e, he, -⟩ := hl a ha
  obtain ⟨⟨e', item⟩, hs, -⟩ := Option.map_eq_some_iff.mp he
  obtain rfl : item = none := (d.slot?_frame hs).1
  exact Frame.isOpen_iff.mpr ⟨e', hs⟩

theorem isGreatest_open (hd : d.start.Direct) {fix : Fixpoint}
    (h : World.stall (d.swept n) = (.ok fix, w)) :
    IsGreatest {s | d.frame.Locked s} {a | w.context.frame.isOpen a} := by
  have hn := d.attempts_swept n
  have hs := World.stallWith_ok h
  obtain ⟨log, ht⟩ := hs.tries
  constructor
  · intro a ha
    obtain ⟨b, hb, hab⟩ := hs.locked (hn.direct hd) a ha
    exact ⟨b, hb, hn.awaits_iff.mp hab⟩
  · intro slots hl a ha
    exact (hn.trans ht.attempts).locked_open hd hl (open_of_locked hl) a ha

theorem isOpen_iff_reaches_cycle
    (hw : IsGreatest {s | d.frame.Locked s} {a | w.context.frame.isOpen a}) (a : SlotAddr) :
    w.context.frame.isOpen a ↔
      ∃ b, ReflTransGen d.frame.Awaits a b ∧ TransGen d.frame.Awaits b b := by
  constructor
  · exact exists_cycle_of_finite (Frame.finite_open _) hw.1
  · exact fun h => hw.2 (Frame.locked_cycles d.frame) h

/-- A run that is given up as unresolved has stalled, and its fault names the first open slot. -/
theorem stalled_of_unresolved (hd : d.start.Direct) {fault : Fault}
    (h : World.resolve (d.swept n) = (.error fault, w))
    (hf : fault.report.category = "unresolved") :
    (∃ fix, World.stall (d.swept n) = (.ok fix, w)) ∧ (∃ a, w.context.frame.isOpen a) ∧
      fault = .stuck (w.context.frame.firstOpen?.getD "") := by
  have hn := d.attempts_swept n
  rcases World.bind_eq_error.mp h with hs | ⟨fix, u, hs, h⟩
  · obtain ⟨log, u, a, e, heap, hu, hslot, hev⟩ := World.stallWith_error hs
    have hdirect := (hn.trans hu.attempts).direct hd
    exact absurd hf ((hdirect.needs hslot).failed _ _ _ hev)
  · split at h
    · cases h
    · rename_i hc
      cases h
      exact ⟨⟨fix, hs⟩, (World.stallWith_ok hs).left (Bool.eq_false_iff.mpr hc), rfl⟩

/-- Sweeps detect a deadlock exactly. The slots they leave open are the largest set in which each
waits for another, that is, the slots that reach a cycle. Resolving fails for that reason only if
there are such slots, and then names the least of them; it succeeds only if there are none. -/
theorem deadlock_exact (d : Draft)
    (hd : ∀ g ∈ d.groups, ∀ e ∈ g.slots, ∀ p ∈ e.parts false, p.isDirect) (n : Nat) :
    (∀ fix w, World.stall (d.swept n) = (.ok fix, w) →
      IsGreatest {s | d.frame.Locked s} {a | w.context.frame.isOpen a} ∧
      ∀ a, w.context.frame.isOpen a ↔
        ∃ b, ReflTransGen d.frame.Awaits a b ∧ TransGen d.frame.Awaits b b) ∧
    (∀ fault w, World.resolve (d.swept n) = (.error fault, w) →
      fault.report.category = "unresolved" →
      IsGreatest {s | d.frame.Locked s} {a | w.context.frame.isOpen a} ∧
      ∃ a g, w.context.frame.isOpen a ∧ w.context.frame.group? a.group = some g ∧
        fault.report.text = "unresolved: cannot resolve comptime expression " ++
          g.label ++ "[" ++ toString a.slot ++ "]" ∧
        ∀ b, w.context.frame.isOpen b →
          a.group < b.group ∨ a.group = b.group ∧ a.slot ≤ b.slot) ∧
    (∀ k w, World.resolve (d.swept n) = (.ok k, w) → ∀ s, d.frame.Locked s → s = ∅) := by
  have hdirect := direct_start hd
  refine ⟨fun fix w h => ?_, fun fault w h hf => ?_, fun k w h s hl => ?_⟩
  · have hgreatest := isGreatest_open hdirect h
    exact ⟨hgreatest, isOpen_iff_reaches_cycle hgreatest⟩
  · obtain ⟨⟨fix, hs⟩, ⟨a, ho⟩, rfl⟩ := stalled_of_unresolved hdirect h hf
    obtain ⟨text, htext⟩ := Frame.exists_firstOpen? ho
    obtain ⟨b, g, hb, hg, rfl, hleast⟩ := Frame.exists_least_of_firstOpen? htext
    refine ⟨isGreatest_open hdirect hs, b, g, hb, hg, ?_, hleast⟩
    rw [htext, Option.getD_some, Fault.text_stuck, GroupState.describe]
    simp only [String.append_assoc]
  · obtain ⟨fix, u, hs, h⟩ := Job.bind_eq_ok.mp h
    split at h
    · rename_i hc
      cases h
      have hdone := (World.stallWith_ok hs).done hc
      refine Set.eq_empty_iff_forall_notMem.mpr fun a ha => hdone a ?_
      exact (isGreatest_open hdirect hs).2 hl ha
    · obtain ⟨_, _, _, h⟩ := Job.bind_eq_ok.mp h
      cases h

/-- Two slots that wait for each other, one of them through a variable, a third that waits for one
of them, and a lazy read that does not wait. -/
def looping : Draft where
  name := "looping"
  groups := [⟨1, "above", [.lazySlot ⟨0, 0⟩, .seq [.lit .null, .slot ⟨0, 1⟩]]⟩,
    ⟨0, "loop", [.var 7, .type (.listOf (.slot ⟨0, 0⟩)), .lit (.bool true)]⟩]
  vars := [(7, .slot ⟨0, 1⟩)]

/-- What the first sweep leaves of it. -/
def looped : World where
  context.frame.groups := [
    ⟨0, "loop", #[⟨.var 7, none⟩, ⟨.type (.listOf (.slot ⟨0, 0⟩)), none⟩,
      ⟨.lit (.bool true), some (.bool true)⟩]⟩,
    ⟨1, "above", #[⟨.lazySlot ⟨0, 0⟩, some (.hole (.slot ⟨0, 0⟩))⟩,
      ⟨.seq [.lit .null, .slot ⟨0, 1⟩], none⟩]⟩]
  context.frame.vars := [(7, .slot ⟨0, 1⟩)]

theorem swept_looping : looping.swept 1 = looped := by cbv

theorem deadlock_exact_looping :
    (World.stall (looping.swept 1)).1 = .ok ⟨1, false⟩ ∧
      IsGreatest {s | looping.frame.Locked s}
        {a | (World.stall (looping.swept 1)).2.context.frame.isOpen a} ∧
      ∃ fault, (World.resolve (looping.swept 1)).1 = .error fault ∧
        fault.report.category = "unresolved" ∧
        ∃ a, (World.resolve (looping.swept 1)).2.context.frame.isOpen a := by
  obtain ⟨hstall, hresolve, -⟩ := looping.deadlock_exact (by decide) 1
  have hs : (World.stall (looping.swept 1)).1 = .ok ⟨1, false⟩ := by
    rw [swept_looping]
    cbv
  have hr : (World.resolve (looping.swept 1)).1 = .error (.stuck "loop[0]") := by
    rw [swept_looping]
    cbv
  refine ⟨hs, (hstall _ _ (Prod.ext hs rfl)).1, _, hr, rfl, ?_⟩
  obtain ⟨-, a, g, ha, -⟩ := hresolve _ _ (Prod.ext hr rfl) rfl
  exact ⟨a, ha⟩

end Draft

end Comptime
