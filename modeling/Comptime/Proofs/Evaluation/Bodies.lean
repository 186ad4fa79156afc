import Comptime.Proofs.Evaluation.LawfulRuns
import Comptime.Proofs.Faults.Rendering

/-! Evaluation copies the bodies of functions as they are written. Nothing in it looks into a body,
so a slot that a body refers to is neither replaced nor found missing before emission. -/
namespace Comptime

/-- A fault that can be met before emission. Emission alone finds that a slot was not lowered. -/
def Fault.Early (e : Fault) : Prop := ∀ a, e ≠ .notLowered a

/-- The body of the function that an expression makes. -/
def Expr.body? : Expr → Option (List Stmt)
  | .function _ _ body _ => some body
  | _ => none

/-- The bodies of the functions that these expressions make. -/
def bodiesOf (es : List Expr) : List (List Stmt) := es.filterMap Expr.body?

/-- The bodies that an object brings along: its own, or those of the functions that are made when
one of its generics is specialized. -/
def Object.bodies : Object → List (List Stmt)
  | .function f => [f.body]
  | o => o.generics.flatMap fun g => bodiesOf (GenericOf.parts true g)

def Heap.bodies (heap : Heap) : List (List Stmt) := heap.objects.toList.flatMap Object.bodies

/-- All function bodies that are written in a unit. -/
def Draft.bodies (d : Draft) : List (List Stmt) :=
  d.heap.bodies ++ bodiesOf (GroupOf.partsAll true d.groups)

/-- If the expression makes a function, its body is one of these. -/
def Expr.Makes (B : List (List Stmt)) (e : Expr) : Prop :=
  ∀ body, e.body? = some body → body ∈ B

variable {B : List (List Stmt)} {heap : Heap} {h : Handle} {o : Object}

theorem flatMap_subset {α : Type} {f : α → List (List Stmt)} {as : List α} :
    as.flatMap f ⊆ B ↔ ∀ a ∈ as, f a ⊆ B := by
  constructor
  · exact fun h a ha body hbody => h (List.mem_flatMap.mpr ⟨a, ha, hbody⟩)
  · intro h body hbody
    obtain ⟨a, ha, hbody⟩ := List.mem_flatMap.mp hbody
    exact h a ha hbody

theorem bodiesOf_subset {es : List Expr} : bodiesOf es ⊆ B ↔ ∀ e ∈ es, e.Makes B := by
  constructor
  · exact fun hes e he body hbody => hes (List.mem_filterMap.mpr ⟨e, he, hbody⟩)
  · intro hes body hbody
    obtain ⟨e, he, hbody⟩ := List.mem_filterMap.mp hbody
    exact hes e he body hbody

theorem bodiesOf_append_subset {es ds : List Expr} :
    bodiesOf (es ++ ds) ⊆ B ↔ bodiesOf es ⊆ B ∧ bodiesOf ds ⊆ B := by
  rw [bodiesOf, List.filterMap_append, List.append_subset]
  rfl

/-- The generics of a type are made of parts that are allowed. -/
theorem Object.bodies_type_subset {t : TypeValue} : (Object.type t).bodies ⊆ B ↔
    ∀ g ∈ t.generics, ∀ p ∈ GenericOf.parts true g, p.Makes B := by
  simp only [Object.bodies, Object.generics, flatMap_subset, bodiesOf_subset]

namespace Heap

theorem bodies_subset : heap.bodies ⊆ B ↔
    ∀ h o, heap.get? h = some o → o.bodies ⊆ B := by
  rw [Heap.bodies, flatMap_subset]
  constructor
  · exact fun hall h o ho => hall o (Array.mem_toList_iff.mpr (Array.mem_of_getElem? ho))
  · intro hall o ho
    obtain ⟨h, hget⟩ := Array.getElem?_of_mem (Array.mem_toList_iff.mp ho)
    exact hall h o hget

theorem bodies_type? {x : Item} {t : TypeValue} (hh : heap.bodies ⊆ B)
    (ht : heap.type? x = some t) : (Object.type t).bodies ⊆ B := by
  unfold Heap.type? at ht
  split at ht
  · rename_i ho
    cases ht
    obtain ⟨h, -, hget⟩ := Option.bind_eq_some_iff.mp ho
    exact Heap.bodies_subset.mp hh h _ hget
  · cases ht

theorem bodies_alloc (hh : heap.bodies ⊆ B) (ho : o.bodies ⊆ B) :
    (heap.alloc o).bodies ⊆ B := by
  refine Heap.bodies_subset.mpr fun h o' ho' => ?_
  rw [get?_alloc] at ho'
  split at ho'
  · cases ho'
    exact ho
  · exact Heap.bodies_subset.mp hh h o' ho'

end Heap

def Value.bodies : Value → List (List Stmt)
  | .item _ => []
  | .type t => (Object.type t).bodies

section Faults

variable {α β : Type}

/-- If the attempt fails, it fails early. -/
def Outcome.Early (r : Outcome α) : Prop := ∀ e, r = .failed e → e.Early

theorem Outcome.Early.map {r : Outcome α} (hr : r.Early) (f : α → β) : (f <$> r).Early := by
  intro e he
  cases r with
  | resolved | pending => cases he
  | failed e' =>
    cases he
    exact hr e rfl

namespace Chain

variable {chain : Chain}

theorem early_readSlot (chain : Chain) (a : SlotAddr) : (Chain.readSlot chain a).Early := by
  intro e he
  rcases Chain.readSlot_failed he with rfl | rfl <;> exact fun _ he => nomatch he

theorem early_readVar (chain : Chain) (v : VarId) : (Chain.readVar chain v).Early := by
  induction chain with
  | nil => rintro _ ⟨⟩
  | cons f chain ih =>
    rw [Chain.readVar]
    split
    · rintro _ ⟨⟩
    · exact (early_readSlot _ _).map some
    · exact ih

theorem early_read (chain : Chain) (p : Placeholder) : (Chain.read chain p).Early := by
  cases p with
  | slot a => exact early_readSlot chain a
  | var v =>
    intro e he
    simp only [Chain.read] at he
    cases hv : Chain.readVar chain v with
    | resolved x =>
      rw [hv] at he
      cases x <;> cases he
    | pending =>
      rw [hv] at he
      cases he
    | failed e' =>
      rw [hv] at he
      cases he
      exact early_readVar chain v e hv

end Chain

theorem Op.early_apply (op : Op) (a b : Item) : FailsWith Fault.Early (op.apply a b) := by
  intro e he
  rw [Op.apply_error he]
  exact fun _ he => nomatch he

end Faults

/-- How a computation may end: its heap brings along only these bodies, its result is as it should
be, and its fault is an early one. -/
inductive Eval.Ends {α : Type} (B : List (List Stmt)) (P : α → Prop) : Outcome α × Heap → Prop
  | resolved {a : α} {heap : Heap} (hh : heap.bodies ⊆ B) (ha : P a) : Ends B P (.resolved a, heap)
  | pending {heap : Heap} (hh : heap.bodies ⊆ B) : Ends B P (.pending, heap)
  | failed {e : Fault} {heap : Heap} (hh : heap.bodies ⊆ B) (he : e.Early) :
    Ends B P (.failed e, heap)

/-- Run on a heap with these bodies, the computation brings in no others. -/
def Eval.Copies {α : Type} (B : List (List Stmt)) (P : α → Prop) (c : Eval α) : Prop :=
  ∀ heap, heap.bodies ⊆ B → Ends B P (c heap)

namespace Eval

variable {α β : Type} {P : α → Prop} {Q : β → Prop} {c : Eval α} {f : α → Eval β}

theorem Ends.bodies {r : Outcome α × Heap} (hr : Ends B P r) : r.2.bodies ⊆ B := by
  cases hr with
  | resolved hh | pending hh | failed hh => exact hh

theorem Ends.early {r : Outcome α × Heap} (hr : Ends B P r) : r.1.Early := by
  intro e he
  cases hr with
  | resolved | pending => cases he
  | failed _ he' =>
    cases he
    exact he'

theorem copies_lift {r : Outcome α} (hr : r.Early) : Copies B (fun _ => True) (Run.lift r) := by
  intro heap hh
  cases r with
  | resolved a => exact .resolved hh trivial
  | pending => exact .pending hh
  | failed e => exact .failed hh (hr e rfl)

theorem copies_ofExcept {r : Except Fault α} (hr : FailsWith Fault.Early r)
    (ha : ∀ a, r = .ok a → P a) : Copies B P (Run.lift (.ofExcept r)) := by
  intro heap hh
  cases r with
  | ok a => exact .resolved hh (ha a rfl)
  | error e => exact .failed hh (hr e rfl)

theorem copies_pure {a : α} (ha : P a) : Copies B P (pure a) := fun _ hh => .resolved hh ha

theorem copies_fail {e : Fault} (he : e.Early) : Copies B P (Run.fail e) :=
  fun _ hh => .failed hh he

theorem Copies.bind (hc : Copies B P c) (hf : ∀ a, P a → Copies B Q (f a)) :
    Copies B Q (c >>= f) := by
  intro heap hh
  have hends := hc heap hh
  rw [Run.bind_apply]
  match hr : c heap with
  | (.resolved a, heap₁) =>
    rw [hr] at hends
    cases hends with
    | resolved hh ha => exact hf a ha heap₁ hh
  | (.pending, heap₁) =>
    rw [hr] at hends
    exact .pending hends.bodies
  | (.failed e, heap₁) =>
    rw [hr] at hends
    exact .failed hends.bodies (hends.early e rfl)

theorem Copies.map {g : α → β} (hc : Copies B P c) (hg : ∀ a, P a → Q (g a)) :
    Copies B Q (g <$> c) := by
  rw [map_eq_pure_bind]
  exact hc.bind fun a ha => copies_pure (hg a ha)

/-- An item brings along nothing. -/
theorem Copies.item {c : Eval Item} (hc : Copies B (fun _ => True) c) :
    Copies B (fun v => v.bodies ⊆ B) (Value.item <$> c) :=
  hc.map fun _ _ => List.nil_subset B

theorem copies_alloc (ho : o.bodies ⊆ B) : Copies B (fun _ => True) (Eval.alloc o) :=
  fun _ hh => .resolved (Heap.bodies_alloc hh ho) trivial

theorem copies_state {a : Heap → Eval β}
    (ha : ∀ heap, heap.bodies ⊆ B → Copies B Q (a heap)) :
    Copies B Q (Run.state >>= a) :=
  fun heap hh => ha heap hh heap hh

end Eval

/-- Specializing a type brings in no bodies but those that it brings along. -/
def Qualifier.Copies (B : List (List Stmt)) (q : Qualifier) : Prop :=
  ∀ chain t args, (Object.type t).bodies ⊆ B →
    Eval.Copies B (fun _ => True) (q chain t args)

section Run

variable {q : Qualifier} {chain : Chain}

theorem Value.copies_store {v : Value} (hv : v.bodies ⊆ B) :
    Eval.Copies B (fun _ => True) v.store := by
  cases v with
  | item x => exact Eval.copies_pure trivial
  | type t => exact Eval.copies_alloc hv

theorem Value.copies_asType {v : Value} (hv : v.bodies ⊆ B) :
    Eval.Copies B (fun t => (Object.type t).bodies ⊆ B) v.asType := by
  cases v with
  | type t => exact Eval.copies_pure hv
  | item x =>
    refine Eval.copies_state fun heap hh => ?_
    cases ht : heap.type? x with
    | none => exact Eval.copies_fail fun _ he => nomatch he
    | some t => exact Eval.copies_pure (heap.bodies_type? hh ht)

theorem Chain.copies_member (chain : Chain) (obj : Item) (name : String) :
    Eval.Copies B (fun _ => True) (chain.member obj name) := by
  refine Eval.copies_state fun heap hh => ?_
  cases (heap.object? obj).bind (·.member? name) with
  | none => exact Eval.copies_fail fun _ he => nomatch he
  | some x =>
    cases x with
    | hole p => exact Eval.copies_lift (Chain.early_read chain p)
    | _ => exact Eval.copies_pure trivial

mutual

theorem Expr.copies_run (hq : q.Copies B) {e : Expr} (he : bodiesOf (e.parts true) ⊆ B) :
    Eval.Copies B (fun v => v.bodies ⊆ B) (e.run q chain) := by
  cases e with
  | lit x => exact Eval.copies_pure (List.nil_subset B)
  | var v =>
    refine (Eval.copies_lift (Chain.early_readVar chain v)).bind fun y _ => ?_
    cases y with
    | none | some => exact Eval.copies_pure (List.nil_subset B)
  | slot a => exact (Eval.copies_lift (Chain.early_readSlot chain a)).item
  | lazySlot a =>
    simp only [Expr.run]
    split
    · exact Eval.copies_pure (List.nil_subset B)
    · exact (Eval.copies_lift (Chain.early_readSlot chain a)).item
  | seq es =>
    refine (Expr.copies_runAll hq he).bind fun xs _ => ?_
    exact (Eval.copies_alloc (List.nil_subset B)).item
  | record es fs =>
    obtain ⟨hes, hfs⟩ := bodiesOf_append_subset.mp he
    refine (Expr.copies_runAll hq hes).bind fun xs _ => ?_
    refine (Expr.copies_runFields hq hfs).bind fun ys _ => ?_
    exact (Eval.copies_alloc (List.nil_subset B)).item
  | anchor name => exact (Eval.copies_alloc (List.nil_subset B)).item
  | feature name e fs =>
    obtain ⟨he, hfs⟩ := bodiesOf_append_subset.mp he
    refine (Expr.copies_run hq he).bind fun v hv => (Value.copies_store hv).bind fun x _ => ?_
    refine (Expr.copies_runFields hq hfs).bind fun ys _ => ?_
    exact (Eval.copies_alloc (List.nil_subset B)).item
  | type t => exact (TypeExpr.copies_run hq he).map fun t ht => ht
  | apply e es =>
    obtain ⟨hes, he⟩ := bodiesOf_append_subset.mp he
    refine (Expr.copies_runArgs hq hes).bind fun args _ => ?_
    refine (Expr.copies_run hq he).bind fun v hv => (Value.copies_asType hv).bind fun t ht => ?_
    cases t.generic? with
    | none => exact Eval.copies_fail fun _ he => nomatch he
    | some site =>
      refine (Eval.copies_alloc (Object.bodies_type_subset.mpr fun g hg => ?_)).item
      exact Object.bodies_type_subset.mp ht g (t.generics_apply args hg)
  | qualify e es =>
    obtain ⟨hes, he⟩ := bodiesOf_append_subset.mp he
    refine (Expr.copies_runArgs hq hes).bind fun args _ => ?_
    refine (Expr.copies_run hq he).bind fun v hv => (Value.copies_asType hv).bind fun t ht => ?_
    exact (hq chain t args ht).item
  | function name params body fs =>
    -- the one expression that stores a body, and it is the body of the expression
    obtain ⟨hbody, hfs⟩ := List.cons_subset.mp he
    refine (Expr.copies_runFields hq hfs).bind fun ys _ => ?_
    exact (Eval.copies_alloc (List.cons_subset.mpr ⟨hbody, List.nil_subset B⟩)).item
  | member e name =>
    have he : bodiesOf (e.parts true) ⊆ B := he
    refine (Expr.copies_run hq he).bind fun v hv => (Value.copies_store hv).bind fun x _ => ?_
    exact (Chain.copies_member chain x name).item
  | contains e d =>
    obtain ⟨he, hd⟩ := bodiesOf_append_subset.mp he
    refine (Expr.copies_run hq he).bind fun v hv => (Value.copies_asType hv).bind fun t _ => ?_
    refine (Expr.copies_run hq hd).bind fun w hw => (Value.copies_store hw).bind fun x _ => ?_
    exact Eval.copies_state fun heap _ => Eval.copies_pure (List.nil_subset B)
  | binary op a b =>
    obtain ⟨ha, hb⟩ := bodiesOf_append_subset.mp he
    refine (Expr.copies_run hq ha).bind fun v hv => (Value.copies_store hv).bind fun x _ => ?_
    refine (Expr.copies_run hq hb).bind fun w hw => (Value.copies_store hw).bind fun y _ => ?_
    exact (Eval.copies_ofExcept (op.early_apply x y) fun _ _ => trivial).item

theorem Expr.copies_runAll (hq : q.Copies B) {es : List Expr}
    (he : bodiesOf (Expr.partsAll true es) ⊆ B) :
    Eval.Copies B (fun _ => True) (Expr.runAll q chain es) := by
  cases es with
  | nil => exact Eval.copies_pure trivial
  | cons e es =>
    obtain ⟨he, hes⟩ := bodiesOf_append_subset.mp he
    refine (Expr.copies_run hq he).bind fun v hv => (Value.copies_store hv).bind fun x _ => ?_
    exact (Expr.copies_runAll hq hes).bind fun xs _ => Eval.copies_pure trivial

theorem Expr.copies_runFields (hq : q.Copies B) {fs : List (String × Expr)}
    (he : bodiesOf (Expr.partsFields true fs) ⊆ B) :
    Eval.Copies B (fun _ => True) (Expr.runFields q chain fs) := by
  match fs with
  | [] => exact Eval.copies_pure trivial
  | (name, e) :: fs =>
    obtain ⟨he, hfs⟩ := bodiesOf_append_subset.mp he
    refine (Expr.copies_run hq he).bind fun v hv => (Value.copies_store hv).bind fun x _ => ?_
    exact (Expr.copies_runFields hq hfs).bind fun xs _ => Eval.copies_pure trivial

theorem Expr.copies_runArgs (hq : q.Copies B) {es : Option (List Expr)}
    (he : bodiesOf (Expr.partsArgs true es) ⊆ B) :
    Eval.Copies B (fun _ => True) (Expr.runArgs q chain es) := by
  match es with
  | none => exact Eval.copies_pure trivial
  | some es => exact (Expr.copies_runAll hq he).map fun _ _ => trivial

theorem TypeExpr.copies_run (hq : q.Copies B) {t : TypeExpr}
    (ht : bodiesOf (t.parts true) ⊆ B) :
    Eval.Copies B (fun t => (Object.type t).bodies ⊆ B) (t.run q chain) := by
  cases t with
  | listOf e | feature e =>
    refine (Expr.copies_run hq ht).bind fun v hv => (Value.copies_store hv).bind fun x _ => ?_
    exact Eval.copies_pure (List.nil_subset B)
  | object es fs =>
    obtain ⟨hes, hfs⟩ := bodiesOf_append_subset.mp ht
    refine (Expr.copies_runAll hq hes).bind fun xs _ => ?_
    exact (Expr.copies_runFields hq hfs).bind fun ys _ =>
      Eval.copies_pure (List.nil_subset B)
  | generic site =>
    refine Eval.copies_pure (Object.bodies_type_subset.mpr fun g hg => ?_)
    cases List.mem_singleton.mp hg
    exact bodiesOf_subset.mp ht
  | _ => exact Eval.copies_pure (List.nil_subset B)

end

theorem Expr.copies_evalWith (hq : q.Copies B) {e : Expr}
    (he : bodiesOf (e.parts true) ⊆ B) :
    Eval.Copies B (fun _ => True) (e.evalWith q chain) :=
  (Expr.copies_run hq he).bind fun _ hv => Value.copies_store hv

theorem GroupOf.copies_evalWith (hq : q.Copies B) {g : Group}
    (hg : bodiesOf (GroupOf.parts true g) ⊆ B) :
    Eval.Copies B (fun _ => True) (g.evalWith q chain) := by
  obtain ⟨id, label, slots⟩ := g
  exact (Expr.copies_runAll hq hg).bind fun _ _ => Eval.copies_pure trivial

end Run

namespace World

variable {q : Qualifier} {w₀ w : World} {a : SlotAddr} {e : Expr}

/-- The heap of the world and what is still to be evaluated in it bring along only these bodies. -/
structure Makes (B : List (List Stmt)) (w : World) : Prop where
  heap : w.heap.bodies ⊆ B
  expr : w.context.frame.Admitted (Expr.Makes B)

theorem Makes.ends (hw : w.Makes B) (hq : q.Copies B) {item : Option Item}
    (hs : w.context.frame.slot? a = some ⟨e, item⟩) :
    Eval.Ends B (fun _ => True) (e.evalWith q w.chain w.heap) :=
  Expr.copies_evalWith hq (bodiesOf_subset.mpr (hw.expr a e (by simp [Frame.expr?, hs]))) w.heap
    hw.heap

theorem Attempts.makes (hq : q.Copies B) (h₀ : w₀.Makes B) (ht : Attempts q w₀ w) :
    w.Makes B := by
  refine ⟨?_, fun b e he => h₀.expr b e ((ht.expr? b).symm.trans he)⟩
  induction ht with
  | start => exact h₀.heap
  | @next w a e ht hs ih =>
    have hw : w.Makes B := ⟨ih, fun b e he => h₀.expr b e ((ht.expr? b).symm.trans he)⟩
    have hends := hw.ends hq hs
    obtain ⟨x, heap, hev, h⟩ | ⟨heap, hev, h⟩ := trySlot_cases (q := q) hs <;> rw [h]
    · rw [hev] at hends
      exact hends.bodies
    · rw [← hev]
      exact hends.bodies

/-- A run of sweeps brings in no bodies and fails early, if single tries do. -/
theorem Makes.stallWith (hw : w.Makes B) (hq : q.Copies B) :
    (stallWith q w).2.Makes B ∧ FailsWith Fault.Early (stallWith q w).1 := by
  refine ⟨Attempts.start.sweepFrom.makes hq hw, fun fault he => ?_⟩
  have hstall : World.stallWith q w = (.error fault, (World.stallWith q w).2) := Prod.ext he rfl
  obtain ⟨log, u, a, e, heap, ht, hs, hev⟩ := stallWith_error hstall
  exact ((ht.attempts.makes hq hw).ends hq hs).early fault (congrArg Prod.fst hev)

theorem Makes.resolveWith (hw : w.Makes B) (hq : q.Copies B) :
    (resolveWith q w).2.Makes B ∧ FailsWith Fault.Early (resolveWith q w).1 := by
  obtain ⟨hmakes, hfails⟩ := hw.stallWith hq
  rw [World.resolveWith, Job.bind_apply]
  match hs : World.stallWith q w with
  | (.error e, u) =>
    rw [hs] at hmakes hfails
    exact ⟨hmakes, .throw (hfails e rfl)⟩
  | (.ok fix, u) =>
    rw [hs] at hmakes
    dsimp only
    split
    · exact ⟨hmakes, .pure _⟩
    · exact ⟨hmakes, .throw fun _ he => nomatch he⟩

end World

section Specialization

variable {q : Qualifier} {chain : Chain}

theorem TypeValue.early_arguments? (t : TypeValue) (target : Generic)
    (input : Option (List Item)) : FailsWith Fault.Early (t.arguments? target input) := by
  have hchunk : ∀ a, FailsWith Fault.Early (t.chunk input a) := by
    intro a
    unfold TypeValue.chunk
    split
    · exact .pure _
    · exact .throw fun _ he => nomatch he
  have hchunks : FailsWith Fault.Early (t.chunks target input) := by
    unfold TypeValue.chunks
    split
    · exact .throw fun _ he => nomatch he
    · exact (FailsWith.mapM fun a _ => hchunk a).bind fun _ => .pure _
  exact hchunks.bind fun _ => .pure _

theorem Frame.early_enterAll (bs : List (Generic × List Item)) (f : Frame) :
    FailsWith Fault.Early (bs.foldlM (fun (f : Frame) b => f.enter b.1 b.2) f) := by
  induction bs generalizing f with
  | nil => exact .pure f
  | cons b bs ih =>
    rw [List.foldlM_cons]
    refine FailsWith.bind ?_ ih
    unfold Frame.enter Frame.bindParams
    split
    · exact .pure _
    · refine .throw fun _ he => ?_
      cases he

theorem copies_resolveInside (hq : q.Copies B) {f : Frame}
    (hf : f.Admitted (Expr.Makes B)) :
    Eval.Copies B (fun _ => True) (resolveInside q chain f) := by
  intro heap hh
  obtain ⟨hmakes, hfails⟩ := (World.Makes.mk (w := ⟨⟨f, chain⟩, heap⟩) hh hf).stallWith hq
  unfold resolveInside
  match hs : World.stallWith q ⟨⟨f, chain⟩, heap⟩ with
  | (.error e, w) =>
    rw [hs] at hmakes hfails
    exact .failed hmakes.heap (hfails e rfl)
  | (.ok fix, w) =>
    rw [hs] at hmakes
    dsimp only
    split
    · exact .resolved hmakes.heap trivial
    · exact .pending hmakes.heap

theorem Qualifier.copies_qualifyWith (hq : q.Copies B) : (qualifyWith q).Copies B := by
  intro chain t args ht
  unfold qualifyWith
  cases hg : t.generic? with
  | none => exact Eval.copies_fail fun _ he => nomatch he
  | some target =>
    rw [Object.bodies_type_subset] at ht
    have htarget := ht target (TypeValue.mem_generics_of_generic? hg)
    have hbound : Eval.Copies B (fun bs => ∀ b ∈ bs, ∀ p ∈ GenericOf.parts true b.1, p.Makes B)
        (Run.lift (.ofExcept (t.arguments? target args))) := by
      refine Eval.copies_ofExcept (t.early_arguments? target args) fun bs hbs => ?_
      refine TypeValue.forall_arguments? (P := fun b => ∀ p ∈ GenericOf.parts true b.1, p.Makes B)
        (fun a ha b hb => ?_) (fun _ _ => htarget) htarget (fun _ hs => hs) hbs
      exact ht b.1 (TypeValue.mem_of_chunk ha hb).1
    refine hbound.bind fun bs hbs => ?_
    have hframe : Eval.Copies B (fun f : Frame => f.Admitted (Expr.Makes B))
        (Run.lift (.ofExcept (bs.foldlM (fun (f : Frame) b => f.enter b.1 b.2) {}))) := by
      refine Eval.copies_ofExcept (Frame.early_enterAll bs {}) fun f hf => ?_
      exact Frame.admitted_empty.enterAll hbs hf
    refine hframe.bind fun f hf => ?_
    refine (copies_resolveInside hq hf).bind fun inner _ => ?_
    have hbody : bodiesOf (GroupOf.parts true target.body) ⊆ B := by
      obtain ⟨id, name, params, groups, body⟩ := target
      exact (bodiesOf_append_subset.mp (bodiesOf_subset.mpr htarget)).2
    refine (GroupOf.copies_evalWith hq hbody).bind fun body _ => ?_
    refine Eval.copies_state fun heap _ => ?_
    cases heap.type? body with
    | none => exact Eval.copies_fail fun _ he => nomatch he
    | some t => exact Eval.copies_pure trivial

/-- Specializing copies bodies, to any depth. -/
theorem Qualifier.copies_qualifyWithin (depth : Nat) : (qualifyWithin depth).Copies B := by
  induction depth with
  | zero => exact fun _ _ _ _ => Eval.copies_fail fun _ he => nomatch he
  | succ depth ih => exact Qualifier.copies_qualifyWith ih

end Specialization

end Comptime
