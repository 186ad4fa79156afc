import Comptime.Proofs.Evaluation.LawfulRuns
import Mathlib

/-! Frozen items solve their slots. An expression without lazy reads and specializations that
resolves once resolves to the same item ever after, since slots frozen later only turn reads that
were pending into reads that resolve. -/
namespace Comptime

/-- What reads as an item in the first chain reads as that item in the second. -/
structure Chain.Ahead (chain chain' : Chain) : Prop where
  slot : ∀ {a x}, chain.readSlot a = .resolved x → chain'.readSlot a = .resolved x
  var : ∀ {v y}, chain.readVar v = .resolved y → chain'.readVar v = .resolved y

/-- Whenever the first computation resolves, the second does the same. -/
def Eval.Stable {α : Type} (c c' : Eval α) : Prop :=
  ∀ heap a heap', c heap = (.resolved a, heap') → c' heap = (.resolved a, heap')

namespace Eval

variable {α β : Type} {c c' : Eval α} {f f' : α → Eval β}

theorem Stable.refl (c : Eval α) : Stable c c := fun _ _ _ h => h

theorem Stable.bind (hc : Stable c c') (hf : ∀ a, Stable (f a) (f' a)) :
    Stable (c >>= f) (c' >>= f') := by
  intro heap b heap' h
  rw [Run.bind_apply] at h ⊢
  match hr : c heap with
  | (.resolved a, heap₁) =>
    rw [hr] at h
    rw [hc _ _ _ hr]
    exact hf a _ _ _ h
  | (.pending, heap₁) =>
    rw [hr] at h
    cases h
  | (.failed e, heap₁) =>
    rw [hr] at h
    cases h

theorem Stable.map (hc : Stable c c') (g : α → β) : Stable (g <$> c) (g <$> c') := by
  have heq : ∀ d : Eval α, g <$> d = d >>= fun a => pure (g a) := fun d => map_eq_pure_bind g d
  rw [heq, heq]
  exact hc.bind fun a => .refl _

theorem stable_lift {r r' : Outcome α} (hr : ∀ a, r = .resolved a → r' = .resolved a) :
    Stable (Run.lift r) (Run.lift r') := by
  intro heap a heap' h
  cases h
  exact congrArg (·, heap) (hr a rfl)

end Eval

/-- The expression itself neither reads a slot lazily nor specializes a type. -/
def Expr.isEager : Expr → Bool
  | .lazySlot _ | .qualify .. => false
  | _ => true

section Stability

variable {q : Qualifier} {chain chain' : Chain}

theorem Chain.Ahead.read (hc : Chain.Ahead chain chain') {p : Placeholder} {x : Item}
    (hr : chain.read p = .resolved x) : chain'.read p = .resolved x := by
  cases p with
  | slot a => exact hc.slot hr
  | var v =>
    simp only [Chain.read] at hr ⊢
    cases hv : chain.readVar v with
    | resolved y =>
      rw [hv] at hr
      rw [hc.var hv]
      exact hr
    | pending =>
      rw [hv] at hr
      cases hr
    | failed e =>
      rw [hv] at hr
      cases hr

/-- The innermost frame may get ahead on its slots, and then does so on its variables. -/
theorem Chain.ahead_cons {f f' : Frame} (hv : f'.vars = f.vars)
    (hs : ∀ {a x}, Chain.readSlot (f :: chain) a = .resolved x →
      Chain.readSlot (f' :: chain) a = .resolved x) : Chain.Ahead (f :: chain) (f' :: chain) := by
  refine ⟨hs, fun {v y} hr => ?_⟩
  rw [Chain.readVar] at hr ⊢
  rw [hv]
  cases hb : f.vars.lookup v with
  | none =>
    rw [hb] at hr
    exact hr
  | some b =>
    rw [hb] at hr
    cases b with
    | item x => exact hr
    | slot a =>
      dsimp only at hr ⊢
      cases ha : Chain.readSlot (f :: chain) a with
      | resolved x =>
        rw [ha] at hr
        rw [hs ha]
        exact hr
      | pending =>
        rw [ha] at hr
        cases hr
      | failed e =>
        rw [ha] at hr
        cases hr

theorem Chain.Ahead.stable_member (hc : Chain.Ahead chain chain') (obj : Item) (name : String) :
    Eval.Stable (chain.member obj name) (chain'.member obj name) := by
  refine (Eval.Stable.refl _).bind fun heap => ?_
  cases (heap.object? obj).bind (·.member? name) with
  | none => exact .refl _
  | some x =>
    cases x with
    | hole p => exact Eval.stable_lift fun y hy => hc.read hy
    | _ => exact .refl _

mutual

theorem Expr.stable_run (hc : Chain.Ahead chain chain') {e : Expr}
    (he : ∀ p ∈ e.parts false, p.isEager) : Eval.Stable (e.run q chain) (e.run q chain') := by
  cases e with
  | lit x => exact .refl _
  | var v => exact (Eval.stable_lift fun y hy => hc.var hy).bind fun y => .refl _
  | slot a => exact (Eval.stable_lift fun x hx => hc.slot hx).map _
  | lazySlot a => cases he _ List.mem_cons_self
  | seq es =>
    simp only [Expr.parts, List.forall_mem_cons] at he
    exact (Expr.stable_runAll hc he.2).bind fun xs => .refl _
  | record es fs =>
    simp only [Expr.parts, List.forall_mem_cons, List.forall_mem_append] at he
    refine (Expr.stable_runAll hc he.2.1).bind fun xs => ?_
    exact (Expr.stable_runFields hc he.2.2).bind fun ys => .refl _
  | anchor name => exact .refl _
  | feature name e fs =>
    simp only [Expr.parts, List.forall_mem_cons, List.forall_mem_append] at he
    refine (Expr.stable_run hc he.2.1).bind fun v => (Eval.Stable.refl _).bind fun x => ?_
    exact (Expr.stable_runFields hc he.2.2).bind fun ys => .refl _
  | type t =>
    simp only [Expr.parts, List.forall_mem_cons] at he
    exact (TypeExpr.stable_run hc he.2).map _
  | apply e es =>
    simp only [Expr.parts, List.forall_mem_cons, List.forall_mem_append] at he
    refine (Expr.stable_runArgs hc he.2.1).bind fun args => ?_
    exact (Expr.stable_run hc he.2.2).bind fun v => .refl _
  | qualify e es => cases he _ List.mem_cons_self
  | function name params body fs =>
    simp only [Expr.parts, List.forall_mem_cons] at he
    exact (Expr.stable_runFields hc he.2).bind fun ys => .refl _
  | member e name =>
    simp only [Expr.parts, List.forall_mem_cons] at he
    refine (Expr.stable_run hc he.2).bind fun v => (Eval.Stable.refl _).bind fun x => ?_
    exact (hc.stable_member x name).map _
  | contains e d =>
    simp only [Expr.parts, List.forall_mem_cons, List.forall_mem_append] at he
    refine (Expr.stable_run hc he.2.1).bind fun v => (Eval.Stable.refl _).bind fun t => ?_
    exact (Expr.stable_run hc he.2.2).bind fun w => .refl _
  | binary op a b =>
    simp only [Expr.parts, List.forall_mem_cons, List.forall_mem_append] at he
    refine (Expr.stable_run hc he.2.1).bind fun v => (Eval.Stable.refl _).bind fun x => ?_
    exact (Expr.stable_run hc he.2.2).bind fun w => .refl _

theorem Expr.stable_runAll (hc : Chain.Ahead chain chain') {es : List Expr}
    (he : ∀ p ∈ Expr.partsAll false es, p.isEager) :
    Eval.Stable (Expr.runAll q chain es) (Expr.runAll q chain' es) := by
  cases es with
  | nil => exact .refl _
  | cons e es =>
    simp only [Expr.partsAll, List.forall_mem_append] at he
    refine (Expr.stable_run hc he.1).bind fun v => (Eval.Stable.refl _).bind fun x => ?_
    exact (Expr.stable_runAll hc he.2).bind fun xs => .refl _

theorem Expr.stable_runFields (hc : Chain.Ahead chain chain') {fs : List (String × Expr)}
    (he : ∀ p ∈ Expr.partsFields false fs, p.isEager) :
    Eval.Stable (Expr.runFields q chain fs) (Expr.runFields q chain' fs) := by
  match fs with
  | [] => exact .refl _
  | (name, e) :: fs =>
    simp only [Expr.partsFields, List.forall_mem_append] at he
    refine (Expr.stable_run hc he.1).bind fun v => (Eval.Stable.refl _).bind fun x => ?_
    exact (Expr.stable_runFields hc he.2).bind fun ys => .refl _

theorem Expr.stable_runArgs (hc : Chain.Ahead chain chain') {es : Option (List Expr)}
    (he : ∀ p ∈ Expr.partsArgs false es, p.isEager) :
    Eval.Stable (Expr.runArgs q chain es) (Expr.runArgs q chain' es) := by
  match es with
  | none => exact .refl _
  | some es =>
    simp only [Expr.partsArgs] at he
    exact (Expr.stable_runAll hc he).map _

theorem TypeExpr.stable_run (hc : Chain.Ahead chain chain') {t : TypeExpr}
    (ht : ∀ p ∈ t.parts false, p.isEager) : Eval.Stable (t.run q chain) (t.run q chain') := by
  cases t with
  | listOf e =>
    simp only [TypeExpr.parts] at ht
    exact (Expr.stable_run hc ht).bind fun v => .refl _
  | feature e =>
    simp only [TypeExpr.parts] at ht
    exact (Expr.stable_run hc ht).bind fun v => .refl _
  | object es fs =>
    simp only [TypeExpr.parts, List.forall_mem_append] at ht
    refine (Expr.stable_runAll hc ht.1).bind fun xs => ?_
    exact (Expr.stable_runFields hc ht.2).bind fun ys => .refl _
  | _ => exact .refl _

end

theorem Expr.stable_evalWith (hc : Chain.Ahead chain chain') {e : Expr}
    (he : ∀ p ∈ e.parts false, p.isEager) :
    Eval.Stable (e.evalWith q chain) (e.evalWith q chain') :=
  (Expr.stable_run hc he).bind fun _ => .refl _

end Stability

section Growth

/-- The law that asks nothing. -/
def Law.none : Law where
  base := 0
  holds _ _ := True
  lazy _ := True
  mono _ _ := trivial
  ref _ := trivial
  other _ _ := trivial
  hole _ := trivial

theorem Law.none_admits (parts : List Expr) : Admits Law.none.Allows parts := by
  intro p _
  cases p with
  | function => exact fun _ _ => trivial
  | _ => trivial

theorem Eval.Keeps.grows {α : Type} {P : Nat → α → Prop} {c : Eval α}
    (hc : Eval.Keeps .none 0 P c) (heap : Heap) : heap.Grows (c heap).2 := by
  have hheap : heap.Obeys .none :=
    ⟨Nat.zero_le _, fun _ => ⟨fun _ _ => trivial, fun _ _ => Law.none_admits _⟩⟩
  exact (hc heap hheap (Nat.zero_le _)).1.grows

theorem Expr.keeps_none (depth : Nat) (chain : Chain) (e : Expr) :
    Eval.Keeps .none 0 (Value.Obeys .none) (e.run (qualifyWithin depth) chain) := by
  have hchain : Chain.Obeys .none 0 chain :=
    ⟨Nat.le_refl _, fun _ => ⟨fun _ _ _ => trivial, fun _ => trivial⟩⟩
  exact Expr.keeps_run (Qualifier.keeps_qualifyWithin depth) hchain
    (Law.none_admits (e.parts true))

/-- Evaluation only adds to the heap, however it ends. -/
theorem Expr.grows_evalWith (depth : Nat) (chain : Chain) (e : Expr) (heap : Heap) :
    heap.Grows (e.evalWith (qualifyWithin depth) chain heap).2 :=
  ((e.keeps_none depth chain).bind fun _ _ _ hv => Value.keeps_store hv).grows heap

end Growth

namespace World

variable {depth : Nat} {q : Qualifier} {w₀ w : World} {a : SlotAddr} {e : Expr} {x : Item}
  {heap : Heap}

/-- A slot that is frozen was pending before, so no read that resolved is lost. -/
theorem ahead_freeze (hs : w.context.frame.slot? a = some ⟨e, none⟩) :
    Chain.Ahead w.chain (w.freeze a x heap).chain := by
  refine Chain.ahead_cons rfl fun {b y} hr => ?_
  rw [Chain.readSlot_cons] at hr ⊢
  rw [frame_freeze, Frame.isSome_group?_freeze, Frame.slot?_freeze]
  by_cases hb : b = a
  · subst hb
    rw [hs] at hr
    split at hr
    · cases hr
    · rename_i hg
      rw [if_neg hg]
      exact hr
  · rw [if_neg hb]
    exact hr

/-- Every frozen slot holds what its expression evaluates to in the chain as it is now, on a heap
that has grown to the present one by way of the heap that this evaluation leaves. -/
def Solved (q : Qualifier) (w : World) : Prop :=
  ∀ a e x, w.context.frame.slot? a = some ⟨e, some x⟩ → ∃ before after : Heap,
    before.Grows after ∧ after.Grows w.heap ∧
    e.evalWith q w.chain before = (.resolved x, after)

theorem Solved.grow (hw : w.Solved q) (hg : w.heap.Grows heap) : Solved q { w with heap } := by
  intro a e x hs
  obtain ⟨before, after, h1, h2, hev⟩ := hw a e x hs
  exact ⟨before, after, h1, h2.trans hg, hev⟩

theorem Solved.freeze (hw : w.Solved q)
    (heager : ∀ b e', w.context.frame.expr? b = some e' → ∀ p ∈ e'.parts false, p.isEager)
    (hs : w.context.frame.slot? a = some ⟨e, none⟩) (hg : w.heap.Grows heap)
    (hev : e.evalWith q w.chain w.heap = (.resolved x, heap)) :
    (w.freeze a x heap).Solved q := by
  intro b e' y hb
  have hahead : Chain.Ahead w.chain (w.freeze a x heap).chain := ahead_freeze hs
  rw [frame_freeze, Frame.slot?_freeze] at hb
  split at hb
  · -- The slot just frozen: what was evaluated is evaluated again.
    rw [hs] at hb
    cases hb
    have he : ∀ p ∈ e.parts false, p.isEager := heager a e (by simp [Frame.expr?, hs])
    exact ⟨w.heap, heap, hg, .refl _, Expr.stable_evalWith hahead he _ _ _ hev⟩
  · obtain ⟨before, after, h1, h2, hev'⟩ := hw b e' y hb
    have he : ∀ p ∈ e'.parts false, p.isEager := heager b e' (by simp [Frame.expr?, hb])
    exact ⟨before, after, h1, h2.trans hg, Expr.stable_evalWith hahead he _ _ _ hev'⟩

theorem Attempts.solved (h₀ : w₀.Solved (qualifyWithin depth))
    (heager : ∀ b e', w₀.context.frame.expr? b = some e' → ∀ p ∈ e'.parts false, p.isEager)
    (ht : Attempts (qualifyWithin depth) w₀ w) : w.Solved (qualifyWithin depth) := by
  induction ht with
  | start => exact h₀
  | @next w a e ht hs ih =>
    have hg := Expr.grows_evalWith depth w.chain e w.heap
    obtain ⟨x, heap, hev, h⟩ | ⟨heap, hev, h⟩ := trySlot_cases (q := qualifyWithin depth) hs <;>
      rw [h]
    · rw [hev] at hg
      exact ih.freeze (fun b e' hb => heager b e' ((ht.expr? b).symm.trans hb)) hs hg hev
    · rw [hev] at hg
      exact ih.grow hg

end World

/-- In a unit without lazy reads and specializations the items frozen so far are a solution: each is
what its expression evaluates to now, from some earlier heap to some other earlier heap. -/
theorem Draft.frozen_solves (d : Draft)
    (hd : ∀ g ∈ d.groups, ∀ e ∈ g.slots, ∀ p ∈ e.parts false, p.isEager) (n : Nat)
    {a : SlotAddr} {e : Expr} {x : Item} (he : d.frame.expr? a = some e)
    (hx : (d.swept n).chain.readSlot a = .resolved x) :
    ∃ before after : Heap, before.Grows (d.swept n).heap ∧ after.Grows (d.swept n).heap ∧
      e.eval (d.swept n).chain before = (.resolved x, after) := by
  have ht := d.attempts_swept n
  have heager : ∀ b e', d.frame.expr? b = some e' → ∀ p ∈ e'.parts false, p.isEager := by
    intro b e' hb
    obtain ⟨s, hs, rfl⟩ := Option.map_eq_some_iff.mp hb
    obtain ⟨-, g, hg, hmem⟩ := d.slot?_frame hs
    exact hd g hg _ hmem
  have hstart : d.start.Solved (qualifyWithin depthLimit) := by
    intro b e' y hb
    exact absurd (d.slot?_frame hb).1 (by simp)
  have hslot : (d.swept n).context.frame.slot? a = some ⟨e, some x⟩ := by
    rw [World.chain, Context.chain, ht.outer] at hx
    obtain ⟨e', hs⟩ := Chain.frozen_of_readSlot hx
    have he' : (d.swept n).context.frame.expr? a = some e := (ht.expr? a).trans he
    obtain rfl : e' = e := by simpa [Frame.expr?, hs] using he'
    exact hs
  obtain ⟨before, after, h1, h2, hev⟩ := ht.solved hstart heager a e x hslot
  exact ⟨before, after, h1.trans h2, h2, hev⟩

/-- A list that has to wait for its second element, and a slot that fails in every sweep. -/
def Draft.failing : Draft where
  name := "failing"
  groups := [⟨0, "list", [.seq [.seq [], .member (.var 7) "f"]]⟩,
    ⟨1, "whole", [.record [] [("f", .seq [.lit (.bool true)])]]⟩,
    ⟨2, "sum", [.binary .add (.lit .null) (.lit .null)]⟩]
  vars := [(7, .slot ⟨1, 0⟩)]

theorem Draft.frozen_solves_failing :
    (Draft.failing.swept 2).chain.readSlot ⟨0, 0⟩ = .resolved (.ref 4) ∧
      ∃ before after : Heap, before.Grows (Draft.failing.swept 2).heap ∧
        after.Grows (Draft.failing.swept 2).heap ∧
        (Expr.seq [.seq [], .member (.var 7) "f"]).eval (Draft.failing.swept 2).chain before =
          (.resolved (.ref 4), after) := by
  have hx : (Draft.failing.swept 2).chain.readSlot ⟨0, 0⟩ = .resolved (.ref 4) := by cbv
  exact ⟨hx, Draft.failing.frozen_solves (by decide) 2 (a := ⟨0, 0⟩) rfl hx⟩

end Comptime
