import Comptime.Proofs.Evaluation.LawfulRuns
import Comptime.Proofs.Renumbering.Basic

/-! Sound heaps and chains: no handle dangles, and the generics and the expressions in them are
plain. That items name stored objects and nothing is read lazily is a law, so evaluation keeps
it. -/
namespace Comptime

structure Heap.Sound (n : Nat) (heap : Heap) : Prop where
  base : n ≤ heap.size
  closed : heap.Closed
  plain : ∀ {h o}, heap.get? h = some o → o.Plain n

/-- The items of the object name handles below `m`. -/
def Object.Below (m : Nat) (o : Object) : Prop :=
  ∀ x ∈ o.children.map Prod.snd, x.Within (· < m)

/-- The expressions of the slots are plain, and the items name handles below `m`. -/
structure Frame.Sound (n m : Nat) (f : Frame) : Prop where
  expr : ∀ {g s}, g ∈ f.groups → s ∈ g.slots → s.expr.Plain n
  item : ∀ {g s x}, g ∈ f.groups → s ∈ g.slots → s.item = some x → x.Within (· < m)
  var : ∀ {v x}, (v, Binding.item x) ∈ f.vars → x.Within (· < m)

structure Chain.Sound (n m : Nat) (chain : Chain) : Prop where
  base : n ≤ m
  frame : ∀ {f}, f ∈ chain → f.Sound n m

variable {n m k : Nat} {heap : Heap} {h : Handle} {o : Object} {x : Item}

theorem Item.Within.mono {D D' : Handle → Prop} (hx : x.Within D) (hd : ∀ h, D h → D' h) :
    x.Within D' :=
  fun h he => hd h (hx h he)

theorem Item.Within.le (hx : x.Within (· < m)) (hk : m ≤ k) : x.Within (· < k) :=
  hx.mono fun _ hh => Nat.lt_of_lt_of_le hh hk

theorem Frame.Sound.le {f : Frame} (hf : f.Sound n m) (hk : m ≤ k) : f.Sound n k :=
  ⟨hf.expr, fun hg hs hx => (hf.item hg hs hx).le hk, fun hv => (hf.var hv).le hk⟩

theorem Chain.Sound.le {chain : Chain} (hc : Chain.Sound n m chain) (hk : m ≤ k) :
    Chain.Sound n k chain :=
  ⟨Nat.le_trans hc.base hk, fun hf => (hc.frame hf).le hk⟩

/-- Items name stored objects, those in expressions one of the first `n`, and nothing is read
lazily. -/
def Law.below (n : Nat) : Law where
  base := n
  holds m x := x.Within (· < m)
  lazy _ := False
  mono hk hx := hx.le hk
  ref hlt := by
    rintro _ ⟨⟩
    exact hlt
  other hx _ h he := absurd he (hx h)
  hole ha := ha.elim

section Plain

mutual

/-- An expression is plain if the law allows all its parts. -/
theorem Expr.admits_below (e : Expr) : Admits (Law.below n).Allows (e.parts true) ↔ e.Plain n := by
  cases e with
  | lit | var | slot | lazySlot | anchor =>
    simp [Expr.parts, Expr.Plain, Law.Allows, Law.below]
  | seq es => simp [Expr.parts, Expr.Plain, Law.Allows, Expr.admitsAll_below es]
  | record es fs =>
    simp [Expr.parts, Expr.Plain, Law.Allows, Expr.admitsAll_below es, Expr.admitsFields_below fs]
  | feature name e fs =>
    simp [Expr.parts, Expr.Plain, Law.Allows, e.admits_below, Expr.admitsFields_below fs]
  | type t => simp [Expr.parts, Expr.Plain, Law.Allows, TypeExpr.admits_below t]
  | apply e es | qualify e es =>
    simp [Expr.parts, Expr.Plain, Law.Allows, e.admits_below, Expr.admitsArgs_below es, and_comm]
  | function name params body fs =>
    rw [Expr.parts, admits_cons, Expr.admitsFields_below, Expr.Plain]
    exact Iff.rfl
  | member e name => simp [Expr.parts, Expr.Plain, Law.Allows, e.admits_below]
  | contains e d =>
    simp [Expr.parts, Expr.Plain, Law.Allows, e.admits_below, d.admits_below]
  | binary op a b =>
    simp [Expr.parts, Expr.Plain, Law.Allows, a.admits_below, b.admits_below]

theorem Expr.admitsAll_below (es : List Expr) :
    Admits (Law.below n).Allows (Expr.partsAll true es) ↔ Expr.PlainAll n es := by
  cases es with
  | nil => simp [Expr.partsAll, Expr.PlainAll]
  | cons e es =>
    simp [Expr.partsAll, Expr.PlainAll, e.admits_below, Expr.admitsAll_below es]

theorem Expr.admitsFields_below (fs : List (String × Expr)) :
    Admits (Law.below n).Allows (Expr.partsFields true fs) ↔ Expr.PlainFields n fs := by
  match fs with
  | [] => simp [Expr.partsFields, Expr.PlainFields]
  | (name, e) :: fs =>
    simp [Expr.partsFields, Expr.PlainFields, e.admits_below, Expr.admitsFields_below fs]

theorem Expr.admitsArgs_below (es : Option (List Expr)) :
    Admits (Law.below n).Allows (Expr.partsArgs true es) ↔ Expr.PlainArgs n es := by
  match es with
  | none => simp [Expr.partsArgs, Expr.PlainArgs]
  | some es => simp [Expr.partsArgs, Expr.PlainArgs, Expr.admitsAll_below es]

theorem TypeExpr.admits_below (t : TypeExpr) :
    Admits (Law.below n).Allows (t.parts true) ↔ t.Plain n := by
  cases t with
  | listOf e | feature e =>
    simp [TypeExpr.parts, TypeExpr.Plain, e.admits_below]
  | object es fs =>
    simp [TypeExpr.parts, TypeExpr.Plain, Expr.admitsAll_below es, Expr.admitsFields_below fs]
  | generic site => simp [TypeExpr.parts, TypeExpr.Plain, GenericOf.admits_below site]
  | _ => simp [TypeExpr.parts, TypeExpr.Plain]

theorem GenericOf.admits_below (site : Generic) :
    Admits (Law.below n).Allows (GenericOf.parts true site) ↔ site.Plain n := by
  match site with
  | ⟨_, _, _, groups, body⟩ =>
    simp [GenericOf.parts, GenericOf.Plain, GroupOf.admitsAll_below groups,
      GroupOf.admits_below body]

theorem GroupOf.admits_below (g : Group) :
    Admits (Law.below n).Allows (GroupOf.parts true g) ↔ g.Plain n := by
  match g with
  | ⟨_, _, slots⟩ => simp [GroupOf.parts, GroupOf.Plain, Expr.admitsAll_below slots]

theorem GroupOf.admitsAll_below (gs : List Group) :
    Admits (Law.below n).Allows (GroupOf.partsAll true gs) ↔ GroupOf.PlainAll n gs := by
  match gs with
  | [] => simp [GroupOf.partsAll, GroupOf.PlainAll]
  | g :: gs =>
    simp [GroupOf.partsAll, GroupOf.PlainAll, GroupOf.admits_below g, GroupOf.admitsAll_below gs]

end

end Plain

theorem TypeValue.generic?_eq_some_iff {t : TypeValue} {site : Generic} :
    t.generic? = some site ↔ t.kind = .generic site := by
  unfold TypeValue.generic?
  split <;> simp_all

theorem TypeValue.plain_iff {t : TypeValue} : t.Plain n ↔ ∀ g ∈ t.generics, g.Plain n := by
  rw [TypeValue.Plain, TypeValue.generics, List.forall_mem_append, List.forall_mem_map]
  simp only [Option.mem_toList, TypeValue.generic?_eq_some_iff]

theorem Object.plain_of_not_type (ho : ∀ t, o ≠ .type t) : o.Plain n :=
  fun t he => absurd he (ho t)

theorem Object.obeys_below : o.Obeys (.below n) m ↔ o.Below m ∧ o.Plain n := by
  have hgenerics : (∀ g ∈ o.generics, Admits (Law.below n).Allows (GenericOf.parts true g)) ↔
      o.Plain n := by
    cases o with
    | type t => simp [Object.generics, Object.Plain, TypeValue.plain_iff, GenericOf.admits_below]
    | _ => simp [Object.generics, Object.Plain]
  exact ⟨fun ho => ⟨ho.held, hgenerics.mp ho.generics⟩, fun ho => ⟨ho.1, hgenerics.mpr ho.2⟩⟩

namespace Heap

theorem obeys_below : heap.Obeys (.below n) ↔ heap.Sound n := by
  constructor
  · intro hh
    refine ⟨hh.base, fun h hlt k hk => ?_, fun ho => (Object.obeys_below.mp (hh.object ho)).2⟩
    obtain ⟨o, ho⟩ := exists_get? hlt
    obtain ⟨x, hx, hxk⟩ := List.mem_filterMap.mp hk
    simp only [items, children, ho, Option.elim_some] at hx
    cases x <;> cases hxk
    exact (hh.object ho).held _ hx k rfl
  · intro hs
    refine ⟨hs.base, fun {h o} ho => Object.obeys_below.mpr ⟨?_, hs.plain ho⟩⟩
    refine fun x hx => within_of_refsOf (fun k hk => hs.closed h (get?_lt ho) k ?_) hx
    simpa [refs, items, children, ho] using hk

theorem Sound.alloc (hs : heap.Sound n) (hb : o.Below heap.size) (hp : o.Plain n) :
    (heap.alloc o).Sound n :=
  obeys_below.mp ((obeys_below.mpr hs).extends (extends_alloc (Object.obeys_below.mpr ⟨hb, hp⟩)))

theorem Sound.type? (hs : heap.Sound n) {t : TypeValue} (ht : heap.type? x = some t) :
    t.Plain n :=
  (Object.obeys_below.mp ((obeys_below.mpr hs).type? ht)).2 t rfl

end Heap

namespace Frame

variable {f f' : Frame}

theorem Sound.obeys (hf : f.Sound n m) : f.Obeys (.below n) m := ⟨hf.item, hf.var⟩

theorem sound_iff : f.Sound n m ↔ f.All (Expr.Plain n) (Item.Within (· < m)) :=
  ⟨fun hf => ⟨hf.expr, hf.item, hf.var⟩, fun hf => ⟨hf.expr, hf.item, hf.var⟩⟩

theorem sound_empty : ({} : Frame).Sound n m := sound_iff.mpr all_empty

theorem Sound.addGroup (hf : f.Sound n m) {g : Group} (hg : g.Plain n) :
    (f.addGroup g).Sound n m :=
  sound_iff.mpr ((sound_iff.mp hf).addGroup (Expr.plainAll_iff.mp hg.slots))

theorem Sound.declare (hf : f.Sound n m) (v : VarId) {b : Binding}
    (hb : ∀ x, b = .item x → x.Within (· < m)) : (f.declare v b).Sound n m :=
  sound_iff.mpr ((sound_iff.mp hf).declare v hb)

end Frame

theorem Chain.Sound.obeys {chain : Chain} (hc : Chain.Sound n m chain) :
    Chain.Obeys (.below n) m chain :=
  ⟨hc.base, fun hf => (hc.frame hf).obeys⟩

/-- The generic is plain and its arguments name handles below `m`. -/
def BoundSound (n m : Nat) (b : Generic × List Item) : Prop :=
  b.1.Plain n ∧ ∀ x ∈ b.2, x.Within (· < m)

theorem Frame.Sound.enterAll {bs : List (Generic × List Item)} {f f' : Frame} (hf : f.Sound n m)
    (hb : ∀ b ∈ bs, BoundSound n m b)
    (h : bs.foldlM (fun f b => f.enter b.1 b.2) f = .ok f') : f'.Sound n m := by
  refine sound_iff.mpr ((sound_iff.mp hf).enterAll (fun b hmem => ⟨fun g hg => ?_, ?_⟩) h)
  · exact Expr.plainAll_iff.mp ((hb b hmem).1.groups hg).slots
  · exact (hb b hmem).2

end Comptime
