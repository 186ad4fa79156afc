import Comptime.Eval
import Comptime.Proofs.Evaluation.Parts
import Comptime.Proofs.Reachability
import Comptime.Proofs.Renaming.Replacement

/-! Laws about items that evaluation keeps. Evaluation only adds to the heap; if what it starts from
obeys a law, so does all that it stores, and so does what it yields. This holds however the
evaluation ends. -/
namespace Comptime

/-- The second heap has the objects of the first, and perhaps more. -/
structure Heap.Grows (heap heap' : Heap) : Prop where
  size : heap.size ≤ heap'.size
  get? : ∀ {h}, h < heap.size → heap'.get? h = heap.get? h

/-- A condition on the items of a heap of some size, and on the slots that may be read lazily. The
items in expressions satisfy it from the size `base` on. -/
structure Law where
  base : Nat
  holds : Nat → Item → Prop
  lazy : SlotAddr → Prop
  mono : ∀ {m k x}, m ≤ k → holds m x → holds k x
  /-- It asks nothing of references to stored objects, -/
  ref : ∀ {m h}, h < m → holds m (.ref h)
  /-- nor of items that refer to nothing. -/
  other : ∀ {m x}, (∀ h, x ≠ .ref h) → (∀ p, x ≠ .hole p) → holds m x
  hole : ∀ {a}, lazy a → holds base (.hole (.slot a))

/-- What a law asks of one part of an expression. -/
def Law.Allows (l : Law) : Expr → Prop
  | .lit x => l.holds l.base x
  | .lazySlot a => l.lazy a
  | .function _ _ body _ => ∀ x ∈ Stmt.itemsAll body, l.holds l.base x
  | _ => True

/-- The generics that a type names. -/
def TypeValue.generics (t : TypeValue) : List Generic :=
  t.generic?.toList ++ t.applications.map Application.site

def Object.generics : Object → List Generic
  | .type t => t.generics
  | _ => []

structure Object.Obeys (l : Law) (m : Nat) (o : Object) : Prop where
  held : ∀ x ∈ o.held, l.holds m x
  generics : ∀ g ∈ o.generics, Admits l.Allows (GenericOf.parts true g)

def Value.Obeys (l : Law) (m : Nat) : Value → Prop
  | .item x => l.holds m x
  | .type t => (Object.type t).Obeys l m

/-- The items that can be read in the frame obey the law. Nothing is asked of its expressions. -/
structure Frame.Obeys (l : Law) (m : Nat) (f : Frame) : Prop where
  item : ∀ {g s x}, g ∈ f.groups → s ∈ g.slots → s.item = some x → l.holds m x
  var : ∀ {v x}, (v, Binding.item x) ∈ f.vars → l.holds m x

structure Chain.Obeys (l : Law) (m : Nat) (chain : Chain) : Prop where
  base : l.base ≤ m
  frame : ∀ {f}, f ∈ chain → f.Obeys l m

structure Heap.Obeys (l : Law) (heap : Heap) : Prop where
  base : l.base ≤ heap.size
  object : ∀ {h o}, heap.get? h = some o → o.Obeys l heap.size

/-- The second heap has the objects of the first, and those it has besides obey the law with the
heap as it was when they were stored. -/
structure Heap.Extends (l : Law) (heap heap' : Heap) : Prop where
  grows : heap.Grows heap'
  fresh : ∀ {h o}, heap.size ≤ h → heap'.get? h = some o → o.Obeys l h

variable {l : Law} {m k : Nat} {heap heap' heap'' : Heap} {h : Handle} {o : Object} {x : Item}

theorem Object.Obeys.le (ho : o.Obeys l m) (hk : m ≤ k) : o.Obeys l k :=
  ⟨fun x hx => l.mono hk (ho.held x hx), ho.generics⟩

theorem Frame.Obeys.le {f : Frame} (hf : f.Obeys l m) (hk : m ≤ k) : f.Obeys l k :=
  ⟨fun hg hs hx => l.mono hk (hf.item hg hs hx), fun hv => l.mono hk (hf.var hv)⟩

theorem Chain.Obeys.le {chain : Chain} (hc : Chain.Obeys l m chain) (hk : m ≤ k) :
    Chain.Obeys l k chain :=
  ⟨Nat.le_trans hc.base hk, fun hf => (hc.frame hf).le hk⟩

namespace Heap

theorem Grows.refl (heap : Heap) : heap.Grows heap := ⟨Nat.le_refl _, fun _ => rfl⟩

theorem Grows.trans (hg : heap.Grows heap') (hg' : heap'.Grows heap'') : heap.Grows heap'' where
  size := Nat.le_trans hg.size hg'.size
  get? hh := (hg'.get? (Nat.lt_of_lt_of_le hh hg.size)).trans (hg.get? hh)

theorem grows_alloc (heap : Heap) (o : Object) : heap.Grows (heap.alloc o) where
  size := by simp
  get? hh := by rw [get?_alloc, if_neg (Nat.ne_of_lt hh)]

theorem Grows.refs (hg : heap.Grows heap') (hh : h < heap.size) :
    heap'.refs h = heap.refs h := by
  simp only [Heap.refs, Heap.items, Heap.children, hg.get? hh]

theorem Extends.refl (l : Law) (heap : Heap) : heap.Extends l heap :=
  ⟨.refl heap, fun hle ho => absurd (get?_lt ho) (Nat.not_lt.mpr hle)⟩

theorem Extends.trans (he : heap.Extends l heap') (he' : heap'.Extends l heap'') :
    heap.Extends l heap'' where
  grows := he.grows.trans he'.grows
  fresh {h o} hle ho := by
    by_cases hlt : h < heap'.size
    · exact he.fresh hle ((he'.grows.get? hlt).symm.trans ho)
    · exact he'.fresh (Nat.le_of_not_lt hlt) ho

theorem extends_alloc (ho : o.Obeys l heap.size) : heap.Extends l (heap.alloc o) where
  grows := grows_alloc heap o
  fresh {h o'} hle ho' := by
    rw [get?_alloc] at ho'
    split at ho'
    · rename_i heq
      cases ho'
      exact heq ▸ ho
    · exact absurd (get?_lt ho') (Nat.not_lt.mpr hle)

/-- An old object obeyed the law before, and a new one obeys it since it was stored. -/
theorem Obeys.extends (hh : heap.Obeys l) (he : heap.Extends l heap') : heap'.Obeys l where
  base := Nat.le_trans hh.base he.grows.size
  object {h o} ho := by
    by_cases hlt : h < heap.size
    · exact (hh.object ((he.grows.get? hlt).symm.trans ho)).le he.grows.size
    · exact (he.fresh (Nat.le_of_not_lt hlt) ho).le (Nat.le_of_lt (get?_lt ho))

theorem Obeys.type? (hh : heap.Obeys l) {t : TypeValue} (ht : heap.type? x = some t) :
    (Object.type t).Obeys l heap.size := by
  unfold Heap.type? at ht
  split at ht
  · rename_i t' ho
    cases ht
    obtain ⟨h, -, hg⟩ := Option.bind_eq_some_iff.mp ho
    exact hh.object hg
  · cases ht

end Heap

theorem Frame.mem_vars_of_lookup (f : Frame) {v : VarId} {b : Binding}
    (h : f.vars.lookup v = some b) : (v, b) ∈ f.vars := by
  obtain ⟨before, after, hvars, -⟩ := List.lookup_eq_some_iff.mp h
  simp [hvars]

namespace Chain

variable {chain : Chain}

/-- Reading a slot fails if there is no such group or slot. -/
theorem readSlot_failed {a : SlotAddr} {e : Fault} (hr : Chain.readSlot chain a = .failed e) :
    e = .noGroup a.group ∨ e = .noSlot a := by
  unfold Chain.readSlot at hr
  split at hr
  · cases hr
    exact Or.inl rfl
  · split at hr <;> cases hr
    exact Or.inr rfl

theorem Obeys.readSlot (hc : Chain.Obeys l m chain) {a : SlotAddr}
    (hr : Chain.readSlot chain a = .resolved x) : l.holds m x := by
  unfold Chain.readSlot at hr
  split at hr
  · cases hr
  · rename_i g hg
    obtain ⟨f, hf, hfg⟩ := List.exists_of_findSome?_eq_some hg
    split at hr
    · rename_i s hs
      cases hr
      exact (hc.frame hf).item (List.mem_of_find?_eq_some hfg) (Array.mem_of_getElem? hs) rfl
    · cases hr
    · cases hr

theorem Obeys.readVar (hc : Chain.Obeys l m chain) {v : VarId}
    (hr : Chain.readVar chain v = .resolved (some x)) : l.holds m x := by
  induction chain with
  | nil => cases hr
  | cons f chain ih =>
    rw [Chain.readVar] at hr
    cases hv : f.vars.lookup v with
    | none =>
      rw [hv] at hr
      exact ih ⟨hc.base, fun hg => hc.frame (List.mem_cons_of_mem f hg)⟩ hr
    | some b =>
      rw [hv] at hr
      cases b with
      | item y =>
        cases hr
        exact (hc.frame List.mem_cons_self).var (f.mem_vars_of_lookup hv)
      | slot a =>
        cases hs : Chain.readSlot (f :: chain) a with
        | resolved y =>
          simp only [hs] at hr
          cases hr
          exact hc.readSlot hs
        | pending =>
          simp only [hs] at hr
          cases hr
        | failed e =>
          simp only [hs] at hr
          cases hr

theorem Obeys.read (hc : Chain.Obeys l m chain) {p : Placeholder}
    (hr : Chain.read chain p = .resolved x) : l.holds m x := by
  cases p with
  | slot a => exact hc.readSlot hr
  | var v =>
    simp only [Chain.read] at hr
    cases hv : Chain.readVar chain v with
    | resolved y =>
      simp only [hv] at hr
      cases y with
      | some y =>
        cases hr
        exact hc.readVar hv
      | none =>
        cases hr
        exact l.other (by simp) (by simp)
    | pending =>
      simp only [hv] at hr
      cases hr
    | failed e =>
      simp only [hv] at hr
      cases hr

end Chain

/-- Run on a heap that obeys the law and has at least `m` objects, the computation only adds objects
that obey it, and a result satisfies `P` at the new size. -/
def Eval.Keeps {α : Type} (l : Law) (m : Nat) (P : Nat → α → Prop) (c : Eval α) : Prop :=
  ∀ heap, heap.Obeys l → m ≤ heap.size →
    heap.Extends l (c heap).2 ∧ ∀ a, (c heap).1 = .resolved a → P (c heap).2.size a

namespace Eval

variable {α β : Type} {P : Nat → α → Prop} {Q : Nat → β → Prop} {c : Eval α} {f : α → Eval β}

theorem keeps_lift {r : Outcome α} (hr : ∀ a k, r = .resolved a → m ≤ k → P k a) :
    Keeps l m P (Run.lift r) :=
  fun heap _ hm => ⟨.refl l heap, fun a ha => hr a _ ha hm⟩

theorem keeps_pure {a : α} (ha : ∀ k, m ≤ k → P k a) : Keeps l m P (pure a) := by
  refine fun heap _ hm => ⟨.refl l heap, fun b hb => ?_⟩
  cases hb
  exact ha _ hm

theorem keeps_fail {e : Fault} : Keeps l m P (Run.fail e) := keeps_lift fun _ _ h => nomatch h

theorem Keeps.bind (hc : Keeps l m P c) (hf : ∀ k a, m ≤ k → P k a → Keeps l k Q (f a)) :
    Keeps l m Q (c >>= f) := by
  intro heap hh hm
  obtain ⟨he, hres⟩ := hc heap hh hm
  rw [Run.bind_apply]
  match hr : c heap with
  | (.pending, heap₁) =>
    rw [hr] at he
    exact ⟨he, fun b hb => nomatch hb⟩
  | (.failed e, heap₁) =>
    rw [hr] at he
    exact ⟨he, fun b hb => nomatch hb⟩
  | (.resolved a, heap₁) =>
    rw [hr] at he hres
    have hk : m ≤ heap₁.size := Nat.le_trans hm he.grows.size
    obtain ⟨he', hres'⟩ := hf heap₁.size a hk (hres a rfl) heap₁ (hh.extends he) (Nat.le_refl _)
    exact ⟨he.trans he', hres'⟩

theorem Keeps.map {g : α → β} (hc : Keeps l m P c) (hg : ∀ k a, P k a → Q k (g a)) :
    Keeps l m Q (g <$> c) := by
  have heq : g <$> c = c >>= fun a => pure (g a) := map_eq_pure_bind g c
  rw [heq]
  intro heap hh hm
  obtain ⟨he, hres⟩ := hc heap hh hm
  rw [Run.bind_apply]
  match hr : c heap with
  | (.pending, heap₁) =>
    rw [hr] at he
    exact ⟨he, fun b hb => nomatch hb⟩
  | (.failed e, heap₁) =>
    rw [hr] at he
    exact ⟨he, fun b hb => nomatch hb⟩
  | (.resolved a, heap₁) =>
    rw [hr] at he hres
    refine ⟨he, fun b hb => ?_⟩
    cases hb
    exact hg _ a (hres a rfl)

theorem keeps_alloc (ho : o.Obeys l m) : Keeps l m l.holds (Eval.alloc o) := by
  refine fun heap _ hm => ⟨Heap.extends_alloc (ho.le hm), fun x hx => ?_⟩
  cases hx
  exact l.ref (by simp [Eval.alloc])

/-- What is read off the heap is as good as the heap. -/
theorem keeps_state {a : Heap → Eval β} (ha : ∀ heap, heap.Obeys l → m ≤ heap.size →
    Keeps l heap.size Q (a heap)) : Keeps l m Q (Run.state >>= a) :=
  fun heap hh hm => ha heap hh hm heap hh (Nat.le_refl _)

end Eval

/-- Specializing keeps the law, for a chain, a type and arguments that obey it. -/
def Qualifier.Keeps (l : Law) (q : Qualifier) : Prop :=
  ∀ {m chain t args}, Chain.Obeys l m chain → (Object.type t).Obeys l m →
    (∀ xs, args = some xs → ∀ x ∈ xs, l.holds m x) → Eval.Keeps l m l.holds (q chain t args)

section Run

variable {q : Qualifier} {chain : Chain}

theorem Value.keeps_store {v : Value} (hv : v.Obeys l m) : Eval.Keeps l m l.holds v.store := by
  cases v with
  | item x => exact Eval.keeps_pure fun k hk => l.mono hk hv
  | type t => exact Eval.keeps_alloc hv

theorem Value.keeps_asType {v : Value} (hv : v.Obeys l m) :
    Eval.Keeps l m (fun k t => (Object.type t).Obeys l k) v.asType := by
  cases v with
  | type t => exact Eval.keeps_pure fun k hk => hv.le hk
  | item x =>
    refine Eval.keeps_state fun heap hh _ => ?_
    cases ht : heap.type? x with
    | none => exact Eval.keeps_fail
    | some t => exact Eval.keeps_pure fun k hk => (hh.type? ht).le hk

theorem Object.mem_held_of_member? {name : String} (hx : o.member? name = some x) :
    x ∈ o.held := by
  cases o with
  | record features fields =>
    obtain ⟨before, after, rfl, -⟩ := List.lookup_eq_some_iff.mp hx
    simp [Object.held, Object.children, named]
  | feature _ key fields =>
    obtain ⟨before, after, rfl, -⟩ := List.lookup_eq_some_iff.mp hx
    simp [Object.held, Object.children, named]
  | _ => cases hx

theorem Chain.keeps_member (hc : Chain.Obeys l m chain) (obj : Item) (name : String) :
    Eval.Keeps l m l.holds (chain.member obj name) := by
  refine Eval.keeps_state fun heap hh hm => ?_
  cases hx : (heap.object? obj).bind (·.member? name) with
  | none => exact Eval.keeps_fail
  | some x =>
    obtain ⟨o, ho, hox⟩ := Option.bind_eq_some_iff.mp hx
    obtain ⟨h, -, hg⟩ := Option.bind_eq_some_iff.mp ho
    have hheld := (hh.object hg).held x (Object.mem_held_of_member? hox)
    cases x with
    | hole p => exact Eval.keeps_lift fun y k hy hk => l.mono (Nat.le_trans hm hk) (hc.read hy)
    | _ => exact Eval.keeps_pure fun k hk => l.mono hk hheld

theorem Op.holds_apply {op : Op} {a b y : Item} (h : op.apply a b = .ok y) : l.holds m y := by
  unfold Op.apply at h
  split at h <;> first
    | (cases h; exact l.other (by simp) (by simp))
    | skip
  split at h
  · cases h
  · split at h <;> cases h
    all_goals exact l.other (by simp) (by simp)

theorem Op.apply_error {op : Op} {a b : Item} {e : Fault} (h : op.apply a b = .error e) :
    e = .operands op a b := by
  unfold Op.apply at h
  split at h <;> try cases h
  split at h
  · cases h
    rfl
  · split at h <;> cases h
    rfl

theorem Object.generics_eq_nil (ho : ∀ t, o ≠ .type t) : o.generics = [] := by
  cases o with
  | type t => exact absurd rfl (ho t)
  | _ => rfl

/-- An object that is no type obeys the law if its items do. -/
theorem Object.obeys_of_held (ho : ∀ t, o ≠ .type t) (hx : ∀ x ∈ o.held, l.holds m x) :
    o.Obeys l m :=
  ⟨hx, fun g hg => by simp [Object.generics_eq_nil ho] at hg⟩

theorem TypeValue.mem_generics_of_generic? {t : TypeValue} {site : Generic}
    (hg : t.generic? = some site) : site ∈ t.generics := by
  simp [TypeValue.generics, hg]

/-- Noting arguments on a type brings in no generic that it did not name. -/
theorem TypeValue.generics_apply (t : TypeValue) (args : Option (List Item)) :
    (t.apply args).generics ⊆ t.generics := by
  unfold TypeValue.apply
  cases hg : t.generic? with
  | none => exact List.Subset.refl _
  | some site =>
    intro g hmem
    simp only [TypeValue.generics, List.map_append, List.mem_append] at hmem
    rcases hmem with hmem | hmem | hmem
    · exact List.mem_append_left _ hmem
    · exact List.mem_append_right _ hmem
    · cases List.mem_singleton.mp hmem
      exact TypeValue.mem_generics_of_generic? hg

/-- The type notes arguments that obey the law. -/
theorem TypeValue.obeys_apply {t : TypeValue} (ht : (Object.type t).Obeys l m)
    {args : Option (List Item)} (ha : ∀ xs, args = some xs → ∀ x ∈ xs, l.holds m x) :
    (Object.type (t.apply args)).Obeys l m := by
  refine ⟨fun x hx => ?_, fun g hg => ht.generics g (t.generics_apply args hg)⟩
  rcases TypeValue.mem_held_apply hx with hx | ⟨xs, hxs, hx⟩
  · exact ht.held x hx
  · exact ha xs hxs x hx

theorem keeps_ofExcept {α : Type} {P : Nat → α → Prop} {r : Except Fault α}
    (hr : ∀ a k, r = .ok a → m ≤ k → P k a) : Eval.Keeps l m P (Run.lift (.ofExcept r)) := by
  refine Eval.keeps_lift fun a k ha hk => hr a k ?_ hk
  cases r with
  | ok b =>
    cases ha
    rfl
  | error e => cases ha

mutual

theorem Expr.keeps_run (hq : Qualifier.Keeps l q) {m : Nat} (hc : Chain.Obeys l m chain) {e : Expr}
    (he : Admits l.Allows (e.parts true)) : Eval.Keeps l m (Value.Obeys l) (e.run q chain) := by
  cases e with
  | lit x =>
    simp only [Expr.parts, admits_cons] at he
    exact Eval.keeps_pure fun k hk => l.mono (Nat.le_trans hc.base hk) he.1
  | var v =>
    have hr : Eval.Keeps l m (fun k y => ∀ x, y = some x → l.holds k x)
        (Run.lift (Chain.readVar chain v)) := by
      refine Eval.keeps_lift fun y k hy hk x hx => ?_
      subst hx
      exact l.mono hk (hc.readVar hy)
    refine hr.bind fun k y hk hy => ?_
    cases y with
    | none => exact Eval.keeps_pure fun _ _ => l.other (by simp) (by simp)
    | some x => exact Eval.keeps_pure fun j hj => l.mono hj (hy x rfl)
  | slot a =>
    have hr : Eval.Keeps l m l.holds (Run.lift (Chain.readSlot chain a)) :=
      Eval.keeps_lift fun x k hx hk => l.mono hk (hc.readSlot hx)
    exact hr.map fun k x hx => hx
  | lazySlot a =>
    simp only [Expr.parts, admits_cons] at he
    have hr : Eval.Keeps l m l.holds (Run.lift (Chain.readSlot chain a)) :=
      Eval.keeps_lift fun x k hx hk => l.mono hk (hc.readSlot hx)
    simp only [Expr.run]
    split
    · exact Eval.keeps_pure fun k hk => l.mono (Nat.le_trans hc.base hk) (l.hole he.1)
    · exact hr.map fun k x hx => hx
  | seq es =>
    simp only [Expr.parts, admits_cons] at he
    refine (Expr.keeps_runAll hq hc he.2).bind fun k xs hk hxs => ?_
    refine (Eval.keeps_alloc (Object.obeys_of_held (by simp) fun x hx => ?_)).map fun _ _ hx => hx
    exact hxs x (mem_indexed_items.mp hx)
  | record es fs =>
    simp only [Expr.parts, admits_cons, admits_append] at he
    refine (Expr.keeps_runAll hq hc he.2.1).bind fun k xs hk hxs => ?_
    refine (Expr.keeps_runFields hq (hc.le hk) he.2.2).bind fun j ys hj hys => ?_
    refine (Eval.keeps_alloc (Object.obeys_of_held (by simp) fun x hx => ?_)).map fun _ _ hx => hx
    simp only [Object.held, Object.children, List.map_append, List.mem_append, mem_indexed_items,
      mem_named_items] at hx
    exact hx.elim (fun hx => l.mono hj (hxs x hx)) (hys x)
  | anchor name =>
    refine (Eval.keeps_alloc (Object.obeys_of_held (by simp) fun x hx => ?_)).map fun _ _ hx => hx
    cases hx
  | feature name e fs =>
    simp only [Expr.parts, admits_cons, admits_append] at he
    refine (Expr.keeps_run hq hc he.2.1).bind fun k v hk hv => (Value.keeps_store hv).bind
      fun j x hj hx => ?_
    refine (Expr.keeps_runFields hq (hc.le (Nat.le_trans hk hj)) he.2.2).bind fun i ys hi hys => ?_
    refine (Eval.keeps_alloc (Object.obeys_of_held (by simp) fun y hy => ?_)).map fun _ _ hx => hx
    simp only [Object.held, Object.children, List.map_cons, List.mem_cons, mem_named_items] at hy
    rcases hy with rfl | hy
    · exact l.mono hi hx
    · exact hys y hy
  | type t =>
    simp only [Expr.parts, admits_cons] at he
    exact (TypeExpr.keeps_run hq hc he.2).map fun k t ht => ht
  | apply e es =>
    simp only [Expr.parts, admits_cons, admits_append] at he
    refine (Expr.keeps_runArgs hq hc he.2.1).bind fun k args hk hargs => ?_
    refine (Expr.keeps_run hq (hc.le hk) he.2.2).bind fun j v hj hv => (Value.keeps_asType hv).bind
      fun i t hi ht => ?_
    have hap := TypeValue.obeys_apply ht fun xs hxs x hx =>
      l.mono (Nat.le_trans hj hi) (hargs xs hxs x hx)
    cases t.generic? with
    | none => exact Eval.keeps_fail
    | some site => exact (Eval.keeps_alloc hap).map fun _ _ hx => hx
  | qualify e es =>
    simp only [Expr.parts, admits_cons, admits_append] at he
    refine (Expr.keeps_runArgs hq hc he.2.1).bind fun k args hk hargs => ?_
    refine (Expr.keeps_run hq (hc.le hk) he.2.2).bind fun j v hj hv => (Value.keeps_asType hv).bind
      fun i t hi ht => ?_
    have hji := Nat.le_trans hj hi
    refine (hq (hc.le (Nat.le_trans hk hji)) ht fun xs hxs x hx => ?_).map fun _ _ hx => hx
    exact l.mono hji (hargs xs hxs x hx)
  | function name params body fs =>
    simp only [Expr.parts, admits_cons] at he
    refine (Expr.keeps_runFields hq hc he.2).bind fun k ys hk hys => ?_
    refine (Eval.keeps_alloc (Object.obeys_of_held (by simp) fun x hx => ?_)).map fun _ _ hx => hx
    simp only [Object.held, Object.children, List.map_append, List.mem_append, mem_indexed_items,
      mem_named_items] at hx
    exact hx.elim (hys x) fun hx => l.mono (Nat.le_trans hc.base hk) (he.1 x hx)
  | member e name =>
    simp only [Expr.parts, admits_cons] at he
    refine (Expr.keeps_run hq hc he.2).bind fun k v hk hv => (Value.keeps_store hv).bind
      fun j x hj hx => ?_
    exact (Chain.keeps_member (hc.le (Nat.le_trans hk hj)) x name).map fun _ _ hy => hy
  | contains e d =>
    simp only [Expr.parts, admits_cons, admits_append] at he
    refine (Expr.keeps_run hq hc he.2.1).bind fun k v hk hv => (Value.keeps_asType hv).bind
      fun j t hj ht => ?_
    refine (Expr.keeps_run hq (hc.le (Nat.le_trans hk hj)) he.2.2).bind fun i w hi hw =>
      (Value.keeps_store hw).bind fun n x hn hx => ?_
    exact Eval.keeps_state fun heap _ _ =>
      Eval.keeps_pure fun _ _ => l.other (by simp) (by simp)
  | binary op a b =>
    simp only [Expr.parts, admits_cons, admits_append] at he
    refine (Expr.keeps_run hq hc he.2.1).bind fun k v hk hv => (Value.keeps_store hv).bind
      fun j x hj hx => ?_
    refine (Expr.keeps_run hq (hc.le (Nat.le_trans hk hj)) he.2.2).bind fun i w hi hw =>
      (Value.keeps_store hw).bind fun n y hn hy => ?_
    have hr : Eval.Keeps l n l.holds (Run.lift (.ofExcept (op.apply x y))) :=
      keeps_ofExcept fun z k hz _ => Op.holds_apply hz
    exact hr.map fun _ _ hz => hz

theorem Expr.keeps_runAll (hq : Qualifier.Keeps l q) {m : Nat} (hc : Chain.Obeys l m chain)
    {es : List Expr} (he : Admits l.Allows (Expr.partsAll true es)) :
    Eval.Keeps l m (fun k xs => ∀ x ∈ xs, l.holds k x) (Expr.runAll q chain es) := by
  cases es with
  | nil => exact Eval.keeps_pure fun k _ x hx => nomatch hx
  | cons e es =>
    simp only [Expr.partsAll, admits_append] at he
    refine (Expr.keeps_run hq hc he.1).bind fun k v hk hv => (Value.keeps_store hv).bind
      fun j x hj hx => ?_
    refine (Expr.keeps_runAll hq (hc.le (Nat.le_trans hk hj)) he.2).bind fun i xs hi hxs =>
      Eval.keeps_pure fun n hn y hy => ?_
    rcases List.mem_cons.mp hy with rfl | hy
    · exact l.mono (Nat.le_trans hi hn) hx
    · exact l.mono hn (hxs y hy)

theorem Expr.keeps_runFields (hq : Qualifier.Keeps l q) {m : Nat} (hc : Chain.Obeys l m chain)
    {fs : List (String × Expr)} (he : Admits l.Allows (Expr.partsFields true fs)) :
    Eval.Keeps l m (fun k (ys : Fields) => ∀ x ∈ ys.map Prod.snd, l.holds k x)
      (Expr.runFields q chain fs) := by
  match fs with
  | [] => exact Eval.keeps_pure fun k _ x hx => nomatch hx
  | (name, e) :: fs =>
    simp only [Expr.partsFields, admits_append] at he
    refine (Expr.keeps_run hq hc he.1).bind fun k v hk hv => (Value.keeps_store hv).bind
      fun j x hj hx => ?_
    refine (Expr.keeps_runFields hq (hc.le (Nat.le_trans hk hj)) he.2).bind fun i ys hi hys =>
      Eval.keeps_pure fun n hn y hy => ?_
    rcases List.mem_cons.mp hy with rfl | hy
    · exact l.mono (Nat.le_trans hi hn) hx
    · exact l.mono hn (hys y hy)

theorem Expr.keeps_runArgs (hq : Qualifier.Keeps l q) {m : Nat} (hc : Chain.Obeys l m chain)
    {es : Option (List Expr)} (he : Admits l.Allows (Expr.partsArgs true es)) :
    Eval.Keeps l m (fun k args => ∀ xs, args = some xs → ∀ x ∈ xs, l.holds k x)
      (Expr.runArgs q chain es) := by
  match es with
  | none => exact Eval.keeps_pure fun k _ xs hxs => nomatch hxs
  | some es =>
    simp only [Expr.partsArgs] at he
    refine (Expr.keeps_runAll hq hc he).map fun k xs hxs ys hys => ?_
    cases hys
    exact hxs

theorem TypeExpr.keeps_run (hq : Qualifier.Keeps l q) {m : Nat} (hc : Chain.Obeys l m chain)
    {t : TypeExpr} (ht : Admits l.Allows (t.parts true)) :
    Eval.Keeps l m (fun k t => (Object.type t).Obeys l k) (t.run q chain) := by
  cases t with
  | listOf e =>
    simp only [TypeExpr.parts] at ht
    refine (Expr.keeps_run hq hc ht).bind fun k v hk hv => (Value.keeps_store hv).bind
      fun j x hj hx => Eval.keeps_pure fun i hi => ⟨fun y hy => ?_, fun g hg => nomatch hg⟩
    cases List.mem_singleton.mp hy
    exact l.mono hi hx
  | feature e =>
    simp only [TypeExpr.parts] at ht
    refine (Expr.keeps_run hq hc ht).bind fun k v hk hv => (Value.keeps_store hv).bind
      fun j x hj hx => Eval.keeps_pure fun i hi => ⟨fun y hy => ?_, fun g hg => nomatch hg⟩
    cases List.mem_singleton.mp hy
    exact l.mono hi hx
  | object es fs =>
    simp only [TypeExpr.parts, admits_append] at ht
    refine (Expr.keeps_runAll hq hc ht.1).bind fun k xs hk hxs => ?_
    refine (Expr.keeps_runFields hq (hc.le hk) ht.2).bind fun j ys hj hys =>
      Eval.keeps_pure fun i hi => ⟨fun x hx => ?_, fun g hg => nomatch hg⟩
    simp only [Object.held, Object.children, TypeKind.children, TypeValue.arguments,
      List.zipIdx_nil, List.flatMap_nil, List.append_nil, List.map_append, List.mem_append,
      mem_indexed_items, mem_named_items] at hx
    exact hx.elim (fun hx => l.mono (Nat.le_trans hj hi) (hxs x hx)) fun hx =>
      l.mono hi (hys x hx)
  | generic site =>
    simp only [TypeExpr.parts, ↓reduceIte] at ht
    refine Eval.keeps_pure fun k hk => ⟨(fun x hx => nomatch hx), fun g hg => ?_⟩
    cases List.mem_singleton.mp hg
    exact ht
  | _ => exact Eval.keeps_pure fun k hk => ⟨(fun x hx => nomatch hx), fun g hg => nomatch hg⟩

end

theorem Expr.keeps_evalWith (hq : Qualifier.Keeps l q) (hc : Chain.Obeys l m chain) {e : Expr}
    (he : Admits l.Allows (e.parts true)) : Eval.Keeps l m l.holds (e.evalWith q chain) :=
  (Expr.keeps_run hq hc he).bind fun _ _ _ hv => Value.keeps_store hv

theorem GroupOf.keeps_evalWith (hq : Qualifier.Keeps l q) (hc : Chain.Obeys l m chain) {g : Group}
    (hg : Admits l.Allows (GroupOf.parts true g)) :
    Eval.Keeps l m l.holds (g.evalWith q chain) := by
  obtain ⟨id, label, slots⟩ := g
  rw [GroupOf.parts] at hg
  refine (Expr.keeps_runAll hq hc hg).bind fun k xs hk hxs => Eval.keeps_pure fun j hj => ?_
  cases hx : xs.getLast? with
  | none => exact l.other (by simp) (by simp)
  | some x => exact l.mono hj (hxs x (List.mem_of_getLast? hx))

end Run

end Comptime
