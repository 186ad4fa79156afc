import Comptime.Proofs.Evaluation.Solution
import Comptime.Proofs.Laziness.Discretion
import Comptime.Proofs.Laziness.Trailing
import Comptime.Proofs.Lockstep.Specialization

/-! Discreet expressions evaluate beside the delayed ones. Where the ones store an item, the others
may store a placeholder that leads to it. What is inspected is the same on both sides. -/
namespace Comptime

open List (Forall₂)

variable {R : Item → Item → Prop} {α β γ δ : Type}

section Objects

variable {x y : Item} {xs ys : List Item} {fs gs : Fields} {args args' : Option (List Item)}
  {t : TypeValue}

/-- The fields have the same names, and related items. -/
def Fields.Trails (R : Item → Item → Prop) (fs gs : Fields) : Prop :=
  Forall₂ (fun f g => g.1 = f.1 ∧ R f.2 g.2) fs gs

theorem Fields.Trails.items (hf : fs.Trails R gs) :
    Forall₂ R (fs.map Prod.snd) (gs.map Prod.snd) :=
  List.forall₂_map_left_iff.mpr (List.forall₂_map_right_iff.mpr (hf.imp fun _ _ h => h.2))

theorem Fields.Trails.blank_eq (hf : fs.Trails R gs) : gs.blank = fs.blank :=
  map_eq_of_forall₂ hf fun f _ g hfg => by rw [hfg.1]

theorem blanks_eq_of_forall₂ (h : Forall₂ R xs ys) : blanks ys = blanks xs :=
  map_eq_of_forall₂ h fun _ _ _ _ => rfl

namespace Object.Trails

theorem seq (h : Forall₂ R xs ys) : (Object.seq xs).Trails R (.seq ys) where
  shape := congrArg Object.seq (blanks_eq_of_forall₂ h)
  held := by simpa only [Object.held, Object.children, map_snd_indexed] using h
  names := Or.inr List.nodup_nil

theorem record (h : Forall₂ R xs ys) (hf : fs.Trails R gs) (hn : (fs.map Prod.fst).Nodup) :
    (Object.record xs fs).Trails R (.record ys gs) where
  shape := congrArg₂ Object.record (blanks_eq_of_forall₂ h) hf.blank_eq
  held := by
    simp only [Object.held, Object.children, List.map_append, map_snd_indexed, map_snd_named]
    exact List.rel_append h hf.items
  names := Or.inr hn

theorem feature (name : String) (hx : R x y) (hf : fs.Trails R gs)
    (hn : (fs.map Prod.fst).Nodup) :
    (Object.feature name x fs).Trails R (.feature name y gs) where
  shape := congrArg (Object.feature name .undefined) hf.blank_eq
  held := by
    simp only [Object.held, Object.children, List.map_cons, map_snd_named]
    exact .cons hx hf.items
  names := Or.inr hn

theorem function (hR : ∀ x, R x x) (name : String) (params : List String) (body : List Stmt)
    (hf : fs.Trails R gs) (hn : (fs.map Prod.fst).Nodup) :
    (Object.function ⟨name, params, body, fs⟩).Trails R (.function ⟨name, params, body, gs⟩) where
  shape := by
    rw [Object.shape, Object.shape]
    exact congrArg (fun captures => Object.function ⟨name, params, _, captures⟩) hf.blank_eq
  held := by
    simp only [Object.held, Object.children, List.map_append, map_snd_indexed, map_snd_named]
    exact List.rel_append hf.items (List.forall₂_same.mpr fun x _ => hR x)
  names := Or.inr hn

theorem listOf (hx : R x y) :
    (Object.type { kind := .listOf x }).Trails R (.type { kind := .listOf y }) :=
  ⟨rfl, .cons hx .nil, Or.inr List.nodup_nil⟩

theorem featureOf (hx : R x y) :
    (Object.type { kind := .feature x }).Trails R (.type { kind := .feature y }) :=
  ⟨rfl, .cons hx .nil, Or.inr List.nodup_nil⟩

theorem object (h : Forall₂ R xs ys) (hf : fs.Trails R gs) (hn : (fs.map Prod.fst).Nodup) :
    (Object.type { kind := .object xs fs }).Trails R (.type { kind := .object ys gs }) where
  shape := by
    simp only [Object.shape, TypeKind.shape, blanks_eq_of_forall₂ h, hf.blank_eq]
  held := by
    simp only [Object.held, Object.children, TypeKind.children, TypeValue.arguments,
      List.zipIdx_nil, List.flatMap_nil, List.append_nil, List.map_append, map_snd_indexed,
      map_snd_named]
    exact List.rel_append h hf.items
  names := Or.inr hn

/-- Noting related arguments on the same type. -/
theorem apply (hR : ∀ x, R x x) (ha : Option.Rel (Forall₂ R) args args') :
    (Object.type (t.apply args)).Trails R (.type (t.apply args')) := by
  unfold TypeValue.apply
  cases hg : t.generic? with
  | none => exact .refl hR _
  | some site =>
    obtain ⟨kind, applications⟩ := t
    obtain rfl : kind = .generic site := TypeValue.generic?_eq_some_iff.mp hg
    refine ⟨?_, ?_, Or.inr List.nodup_nil⟩
    · have hblanks : args'.map blanks = args.map blanks := by
        cases ha with
        | none => rfl
        | some h => exact congrArg some (blanks_eq_of_forall₂ h)
      simp only [Object.shape, List.map_append, List.map_cons, List.map_nil, Application.shape,
        hblanks]
    · simp only [Object.held, Object.children, TypeKind.children, TypeValue.arguments,
        List.zipIdx_append, List.flatMap_append, List.map_append, List.nil_append]
      refine List.rel_append (List.forall₂_same.mpr fun x _ => hR x) ?_
      simp only [List.zipIdx_cons, List.zipIdx_nil, List.flatMap_cons, List.flatMap_nil,
        List.append_nil, map_snd_indexed]
      cases ha with
      | none => exact .nil
      | some h => exact h

end Object.Trails

end Objects

/-- The items are related, or the types by what they hold. -/
def Value.Trails (R : Item → Item → Prop) : Value → Value → Prop
  | .item x, .item y => R x y
  | .type t, .type u => (Object.type t).Trails R (.type u)
  | _, _ => False

theorem Value.Trails.refl (hR : ∀ x, R x x) (v : Value) : v.Trails R v := by
  cases v with
  | item x => exact hR x
  | type t => exact Object.Trails.refl hR (.type t)

theorem Heap.exists_of_mem_items {heap : Heap} {h : Handle} {x : Item} (hx : x ∈ heap.items h) :
    ∃ o, heap.get? h = some o ∧ x ∈ o.held := by
  cases ho : heap.get? h with
  | none => simp [Heap.items, Heap.children, ho] at hx
  | some o =>
    rw [Heap.items_of_get? ho] at hx
    exact ⟨o, rfl, hx⟩

/-- Where neither side waits for what only the other one has, both do the same. -/
theorem Outcome.Sim.cases {Q : α → β → Prop} {o : Outcome α} {o' : Outcome β}
    (h : o.Sim True True Q o') :
    (∃ a b, o = .resolved a ∧ o' = .resolved b ∧ Q a b) ∨ (o = .pending ∧ o' = .pending) ∨
      ∃ e e', o = .failed e ∧ o' = .failed e' := by
  cases o <;> cases o'
  case resolved.resolved a b => exact Or.inl ⟨a, b, rfl, rfl, h⟩
  case pending.pending => exact Or.inr (Or.inl ⟨rfl, rfl⟩)
  case failed.failed e e' => exact Or.inr (Or.inr ⟨e, e', rfl, rfl⟩)
  case resolved.failed | failed.resolved => exact h.elim
  case resolved.pending | pending.resolved | failed.pending | pending.failed =>
    exact absurd trivial h

namespace Sight

variable (s : Sight)

/-- Related heaps. The objects in sight are the same, and hold only what is in sight. -/
structure Heaps (R : Item → Item → Prop) (heap heap' : Heap) : Prop where
  trails : heap.Trails R heap'
  lt : ∀ {h}, s.handle h → h < heap.size
  same : ∀ {h}, s.handle h → heap'.get? h = heap.get? h
  shows : ∀ {h o}, s.handle h → heap.get? h = some o → ∀ x ∈ o.held, s.Shows x
  generics : ∀ {h o}, s.handle h → heap.get? h = some o →
    ∀ site ∈ o.generics, Admits s.Allows (GenericOf.parts true site)

/-- What can be read in the chains is related, and a placeholder for a slot is related to what the
slot reads as. What is in sight reads the same, as something in sight. -/
structure Chains (R : Item → Item → Prop) (known : SlotAddr → Bool) (chain chain' : Chain) :
    Prop where
  refl : ∀ x, R x x
  slot : ∀ a, (Chain.readSlot chain a).Sim True True R (Chain.readSlot chain' a)
  var : ∀ v, (Chain.readVar chain v).Sim True True (Option.Rel R) (Chain.readVar chain' v)
  hole : ∀ {a x}, Chain.readSlot chain a = .resolved x → R x (.hole (.slot a))
  known : ∀ {a}, known a = true ↔ ∀ e, Chain.readSlot chain a ≠ .failed e
  shown : ∀ {a}, s.slot a → Chain.readSlot chain' a = Chain.readSlot chain a ∧
    ∀ x, Chain.readSlot chain a = .resolved x → s.Shows x
  shownVar : ∀ {v}, s.var v → Chain.readVar chain' v = Chain.readVar chain v ∧
    ∀ x, Chain.readVar chain v = .resolved (some x) → s.Shows x

/-- The computations end alike on any two related heaps, which they keep so. -/
def Stored (R : Item → Item → Prop) (Q : α → β → Prop) (c : Eval α) (c' : Eval β) : Prop :=
  ∀ ⦃heap heap'⦄, s.Heaps R heap heap' →
    s.Heaps R (c heap).2 (c' heap').2 ∧ (c heap).1.Sim True True Q (c' heap').1

variable {s} {Q : α → β → Prop} {P : γ → δ → Prop} {c : Eval α} {c' : Eval β} {f : α → Eval γ}
  {f' : β → Eval δ} {n : Nat} {known : SlotAddr → Bool} {chain chain' : Chain}
  {heap heap' : Heap}

section Computations

theorem stored_lift {o : Outcome α} {o' : Outcome β} (h : o.Sim True True Q o') :
    s.Stored R Q (Run.lift o) (Run.lift o') :=
  fun _ _ hh => ⟨hh, h⟩

theorem stored_pure {a : α} {b : β} (h : Q a b) : s.Stored R Q (pure a) (pure b) :=
  fun _ _ hh => ⟨hh, h⟩

theorem Stored.bind (h : s.Stored R Q c c') (hf : ∀ {a b}, Q a b → s.Stored R P (f a) (f' b)) :
    s.Stored R P (c >>= f) (c' >>= f') := by
  intro heap heap' hh
  obtain ⟨hheaps, hsim⟩ := h hh
  rw [Run.bind_apply, Run.bind_apply]
  match hc : c heap, hc' : c' heap' with
  | (o, heap₁), (o', heap₁') =>
    rw [hc, hc'] at hheaps hsim
    obtain ⟨a, b, rfl, rfl, hab⟩ | ⟨rfl, rfl⟩ | ⟨e, e', rfl, rfl⟩ := hsim.cases
    · exact hf hab hheaps
    · exact ⟨hheaps, trivial⟩
    · exact ⟨hheaps, trivial⟩

theorem Stored.map {g : α → γ} {g' : β → δ} (h : s.Stored R Q c c')
    (hg : ∀ {a b}, Q a b → P (g a) (g' b)) : s.Stored R P (g <$> c) (g' <$> c') := by
  rw [map_eq_pure_bind, map_eq_pure_bind]
  exact h.bind fun hab => stored_pure (hg hab)

theorem Heaps.alloc (hh : s.Heaps R heap heap') {o o' : Object} (ho : o.Trails R o') :
    s.Heaps R (heap.alloc o) (heap'.alloc o') := by
  have hold : ∀ {h}, s.handle h → (heap.alloc o).get? h = heap.get? h := by
    intro h hs
    rw [Heap.get?_alloc, if_neg (Nat.ne_of_lt (hh.lt hs))]
  refine ⟨⟨by simp [hh.trails.size], fun {h p p'} hp hp' => ?_⟩, fun hs => ?_, fun hs => ?_,
    fun hs hp => ?_, fun hs hp => ?_⟩
  · rw [Heap.get?_alloc] at hp hp'
    rw [hh.trails.size] at hp'
    split at hp
    · rename_i hlast
      rw [if_pos hlast] at hp'
      cases hp
      cases hp'
      exact ho
    · rename_i hlast
      rw [if_neg hlast] at hp'
      exact hh.trails.object hp hp'
  · rw [Heap.size_alloc]
    exact Nat.lt_succ_of_lt (hh.lt hs)
  · rw [hold hs, Heap.get?_alloc, hh.trails.size, if_neg (Nat.ne_of_lt (hh.lt hs)), hh.same hs]
  · exact hh.shows hs ((hold hs).symm.trans hp)
  · exact hh.generics hs ((hold hs).symm.trans hp)

theorem stored_alloc (hR : ∀ x, R x x) {o o' : Object} (ho : o.Trails R o') :
    s.Stored R R (Eval.alloc o) (Eval.alloc o') := by
  intro heap heap' hh
  refine ⟨hh.alloc ho, ?_⟩
  change R (.ref heap.size) (.ref heap'.size)
  rw [hh.trails.size]
  exact hR _

theorem stored_store (hR : ∀ x, R x x) {v w : Value} (h : v.Trails R w) :
    s.Stored R R v.store w.store := by
  match v, w, h with
  | .item x, .item y, h => exact stored_pure h
  | .type t, .type u, h => exact stored_alloc hR h

end Computations

section Clear

variable (s) in
/-- What is inspected goes in lockstep: all that is in sight, and all that is stored from the handle
`n` on. -/
def lockstep (n : Nat) : Lockstep where
  handle := id
  dom h := s.handle h ∨ n ≤ h
  reads := s.Reads
  generic site := Admits s.Allows (GenericOf.parts true site)
  cutOff := False
  deep := True

theorem Shows.lockstep {x : Item} (hx : s.Shows x) : (s.lockstep n).Shows x :=
  ⟨hx.within.mono fun _ => Or.inl, hx.reads⟩

theorem Shows.steady {x : Item} (hx : s.Shows x) : (s.lockstep n).Steady x :=
  ⟨hx.lockstep, fun _ _ => rfl⟩

theorem allows_lockstep {C : Generic → Prop} (hC : ∀ {site}, (s.lockstep n).generic site → C site)
    {p : Expr} (hp : Admits s.Allows (p.parts true)) : (s.lockstep n).Allows C p := by
  have hallow := hp p p.mem_parts_self
  cases p with
  | lit x => exact hallow.steady
  | var | slot => exact hallow
  | lazySlot a => exact hallow.elim
  | function name params body fs => exact fun x hx => (hallow x hx).steady
  | type t =>
    cases t with
    | generic site =>
      rw [Expr.parts, TypeExpr.parts, if_pos rfl, admits_cons] at hp
      exact hp.2
    | _ => trivial
  | qualify e es => exact Or.inl fun site => hC
  | _ => trivial

/-- Types that name only such generics are specialized in lockstep. -/
theorem qualifies (n depth : Nat) :
    (s.lockstep n).Qualifies (s.lockstep n).generic (qualifyWithin depth)
      (qualifyWithin depth) := by
  induction depth with
  | zero =>
    intro _ _ _ _ _ _ _ _ _ _
    exact Lockstep.alike_deep trivial
  | succ depth ih =>
    refine ih.qualifyWith fun site hsite p hp => allows_lockstep id fun p' hp' => ?_
    exact hsite p' ((GenericOf.parts_sublist hp).subset hp')

theorem admits_lockstep {e : Expr} (he : e.Clear s) :
    Admits ((s.lockstep n).Allows (s.lockstep n).generic) (e.parts false) :=
  fun _ hp => allows_lockstep id fun p' hp' => he p' ((Expr.parts_sublist hp).subset hp')

theorem Heaps.lockstep (hh : s.Heaps R heap heap') :
    (s.lockstep heap.size).Heaps heap heap' := by
  have hnone : ∀ {h}, heap.size ≤ h → heap.get? h = none := Heap.get?_eq_none_iff.mpr
  have hsome : ∀ {h o}, (s.lockstep heap.size).dom h → heap.get? h = some o → s.handle h := by
    intro h o hd ho
    rcases hd with hs | hle
    · exact hs
    · cases (hnone hle).symm.trans ho
  refine ⟨⟨fun _ _ he => he, fun {h k} hd hk => ?_, fun {h} hd => ?_⟩, fun k => ?_,
    fun {h p} hd hp => ?_, fun {h o} hd ho => ?_⟩
  · obtain ⟨o, ho, hx⟩ := Heap.exists_of_mem_items (mem_refsOf.mp hk)
    exact Or.inl ((hh.shows (hsome hd ho) ho _ hx).within k rfl)
  · change heap'.get? h = (heap.get? h).map (Object.rename {})
    rw [funext Object.rename_id, Option.map_id']
    rcases hd with hs | hle
    · exact hh.same hs
    · rw [hnone hle]
      exact Heap.get?_eq_none_iff.mpr (hh.trails.size ▸ hle)
  · exact ⟨Or.inr (Nat.le_add_right _ _), by rw [hh.trails.size]; rfl⟩
  · obtain ⟨o, ho, hx⟩ := Heap.exists_of_mem_items hp
    exact (hh.shows (hsome hd ho) ho _ hx).reads p rfl
  · exact hh.generics (hsome hd ho) ho

/-- What goes in lockstep from related heaps on, and only adds to them, keeps them related. -/
theorem Heaps.of_lockstep {heap₁ heap₁' : Heap} (hh : s.Heaps R heap heap') (hR : ∀ x, R x x)
    (hg : heap.Grows heap₁) (hg' : heap'.Grows heap₁')
    (hl : (s.lockstep heap.size).Heaps heap₁ heap₁') : s.Heaps R heap₁ heap₁' := by
  have hold : ∀ {h}, s.handle h → heap₁.get? h = heap.get? h := fun hs => hg.get? (hh.lt hs)
  refine ⟨⟨(hl.next 0).2.symm, fun {h o o'} ho ho' => ?_⟩, fun hs => ?_, fun {h} hs => ?_,
    fun hs ho => ?_, fun hs ho => ?_⟩
  · by_cases hlt : h < heap.size
    · rw [hg.get? hlt] at ho
      rw [hg'.get? (hh.trails.size ▸ hlt)] at ho'
      exact hh.trails.object ho ho'
    · have hget : heap₁'.get? h = (heap₁.get? h).map (Object.rename {}) :=
        hl.mirrors.get? (Or.inr (Nat.le_of_not_lt hlt))
      rw [ho, ho', Option.map_some, Object.rename_id] at hget
      cases hget
      exact .refl hR _
  · exact Nat.lt_of_lt_of_le (hh.lt hs) hg.size
  · rw [hold hs, hg'.get? (hh.trails.size ▸ hh.lt hs), hh.same hs]
  · exact hh.shows hs ((hold hs).symm.trans ho)
  · exact hh.generics hs ((hold hs).symm.trans ho)

theorem ends_lockstep {P : α → Prop} {o : Outcome α}
    (hP : ∀ a, o = .resolved a → P a) : (s.lockstep n).Ends (fun a b => P a ∧ b = a) o o := by
  cases o with
  | resolved a => exact .resolved ⟨hP a rfl, rfl⟩
  | pending => exact .pending
  | failed e => exact .failed ⟨fun _ => trivial, e.rename_id.symm⟩

theorem Chains.lockstep (hc : s.Chains R known chain chain') :
    (s.lockstep n).Chains chain chain' where
  slot {a} ha := by
    obtain ⟨heq, hshows⟩ := hc.shown ha
    rw [heq]
    refine (ends_lockstep hshows).mono ?_
    rintro x _ ⟨hx, rfl⟩
    exact hx.steady.pair
  var {v} hv := by
    obtain ⟨heq, hshows⟩ := hc.shownVar hv
    rw [heq]
    refine (ends_lockstep (P := fun y => ∀ x, y = some x → s.Shows x) ?_).mono ?_
    · rintro _ hv x rfl
      exact hshows x hv
    · rintro _ y ⟨hy, rfl⟩
      refine ⟨fun x hx => (hy x hx).lockstep, ?_⟩
      cases y with
      | none => rfl
      | some x => exact congrArg some (hy x rfl).steady.pair.2

/-- What goes in lockstep is stored alike. -/
theorem stored_of_alike (hR : ∀ x, R x x) {P : Nat → α → β → Prop}
    (h : ∀ n, (s.lockstep n).Alike (P n) c c') (hg : ∀ heap : Heap, heap.Grows (c heap).2)
    (hg' : ∀ heap : Heap, heap.Grows (c' heap).2) (hP : ∀ {n a b}, P n a b → Q a b) :
    s.Stored R Q c c' := by
  intro heap heap' hh
  obtain ⟨hcut, -⟩ | ⟨hheaps, hends⟩ := h heap.size hh.lockstep
  · exact hcut.elim
  · refine ⟨hh.of_lockstep hR (hg heap) (hg' heap') hheaps, ?_⟩
    revert hends
    cases (c heap).1 <;> cases (c' heap').1 <;> intro hends <;> cases hends
    case resolved.resolved.resolved hab => exact hP hab
    case pending.pending.pending | failed.failed.failed => trivial

end Clear

section Expressions

variable {depth : Nat} {es : List Expr} {fs : List (String × Expr)}

theorem stored_clear (hc : s.Chains R known chain chain') {e : Expr} (he : e.Clear s) :
    s.Stored R (Value.Trails R) (e.run (qualifyWithin depth) chain)
      (e.run (qualifyWithin depth) chain') := by
  refine stored_of_alike hc.refl (P := fun n => (s.lockstep n).PairValue)
    (fun n => Lockstep.alike_run (qualifies n depth) hc.lockstep (admits_lockstep he))
    (e.keeps_none depth chain).grows (e.keeps_none depth chain').grows fun {n v w} hvw => ?_
  match v, w, hvw with
  | .item x, .item y, hxy =>
    obtain rfl : y = x := hxy.2.trans (congrFun Item.rename_id x)
    exact hc.refl y
  | .type t, .type u, htu =>
    obtain rfl : u = t := htu.eq.trans t.rename_id
    exact .refl hc.refl _

/-- A type that is inspected is the same on both sides. -/
theorem stored_clear_asType (hc : s.Chains R known chain chain') {e : Expr} (he : e.Clear s) :
    s.Stored R Eq (e.run (qualifyWithin depth) chain >>= Value.asType)
      (e.run (qualifyWithin depth) chain' >>= Value.asType) := by
  have hgrows : ∀ chain : Chain, ∀ heap : Heap,
      heap.Grows ((e.run (qualifyWithin depth) chain >>= Value.asType) heap).2 := fun chain =>
    ((e.keeps_none depth chain).bind fun _ _ _ hv => Value.keeps_asType hv).grows
  refine stored_of_alike hc.refl (P := fun n => (s.lockstep n).PairType)
    (fun n => (Lockstep.alike_run (qualifies n depth) hc.lockstep (admits_lockstep he)).bind
      fun hv => Lockstep.alike_asType hv) (hgrows chain) (hgrows chain') fun {n t u} htu => ?_
  exact (htu.eq.trans t.rename_id).symm

variable (R known chain chain' depth) in
/-- The expression is evaluated beside the delayed one. -/
abbrev Beside (s : Sight) (e : Expr) : Prop :=
  s.Stored R (Value.Trails R) (e.run (qualifyWithin depth) chain)
    ((e.delayed known).run (qualifyWithin depth) chain')

theorem stored_runAll (hR : ∀ x, R x x) (h : ∀ e ∈ es, Beside R known chain chain' depth s e) :
    s.Stored R (Forall₂ R) (Expr.runAll (qualifyWithin depth) chain es)
      (Expr.runAll (qualifyWithin depth) chain' (Expr.delayedAll known es)) := by
  induction es with
  | nil => exact stored_pure .nil
  | cons e es ih =>
    rw [List.forall_mem_cons] at h
    refine h.1.bind fun hv => (stored_store hR hv).bind fun hx => ?_
    exact (ih h.2).bind fun hxs => stored_pure (.cons hx hxs)

theorem stored_runFields (hR : ∀ x, R x x)
    (h : ∀ f ∈ fs, Beside R known chain chain' depth s f.2) :
    s.Stored R (fun xs ys => xs.map Prod.fst = fs.map Prod.fst ∧ Fields.Trails R xs ys)
      (Expr.runFields (qualifyWithin depth) chain fs)
      (Expr.runFields (qualifyWithin depth) chain' (Expr.delayedFields known fs)) := by
  induction fs with
  | nil => exact stored_pure ⟨rfl, .nil⟩
  | cons f fs ih =>
    obtain ⟨name, e⟩ := f
    rw [List.forall_mem_cons] at h
    refine h.1.bind fun hv => (stored_store hR hv).bind fun hx => ?_
    refine (ih h.2).bind fun hxs => stored_pure ⟨?_, .cons ⟨rfl, hx⟩ hxs.2⟩
    rw [List.map_cons, List.map_cons, hxs.1]

theorem stored_runArgs (hR : ∀ x, R x x) {es : Option (List Expr)}
    (h : ∀ e ∈ es.getD [], Beside R known chain chain' depth s e) :
    s.Stored R (Option.Rel (Forall₂ R)) (Expr.runArgs (qualifyWithin depth) chain es)
      (Expr.runArgs (qualifyWithin depth) chain' (Expr.delayedArgs known es)) := by
  match es with
  | none => exact stored_pure .none
  | some es => exact (stored_runAll hR h).map .some

/-- A lazy read gives what the slot holds where the delayed one gives the placeholder. -/
theorem beside_lazySlot (hc : s.Chains R known chain chain') (a : SlotAddr) :
    Beside R known chain chain' depth s (.lazySlot a) := by
  rw [Beside, Expr.run, Expr.delayed]
  by_cases hk : known a
  · rw [if_pos hk]
    cases hr : Chain.readSlot chain a with
    | resolved x => exact stored_pure (Q := Value.Trails R) (hc.hole hr)
    | pending => exact stored_pure (Q := Value.Trails R) (hc.refl _)
    | failed e => exact absurd hr (hc.known.mp hk e)
  · rw [if_neg hk]
    have hslot := hc.slot a
    cases hr : Chain.readSlot chain a with
    | resolved x => exact absurd (hc.known.mpr (by simp [hr])) hk
    | pending => exact absurd (hc.known.mpr (by simp [hr])) hk
    | failed e =>
      rw [hr] at hslot
      exact (stored_lift hslot).map fun h => h

/-- Discreet expressions are evaluated beside the delayed ones. -/
theorem beside_of_discreet (hc : s.Chains R known chain chain') {e : Expr} (he : e.Discreet s n) :
    Beside R known chain chain' depth s e := by
  induction he with
  | clear h =>
    rw [Beside, Expr.delayed_eq_of_admits h]
    exact stored_clear hc h
  | lit h => exact stored_pure (Q := Value.Trails R) (hc.refl _)
  | var v =>
    refine (stored_lift (hc.var v)).bind fun {x y} hxy => ?_
    cases hxy with
    | none => exact stored_pure (Q := Value.Trails R) (hc.refl _)
    | some h => exact stored_pure (Q := Value.Trails R) h
  | slot a => exact (stored_lift (hc.slot a)).map fun h => h
  | lazySlot a => exact beside_lazySlot hc a
  | seq _ ih =>
    refine (stored_runAll hc.refl ih).bind fun hxs => ?_
    exact (stored_alloc hc.refl (.seq hxs)).map fun h => h
  | record _ _ hn ihe ihf =>
    refine (stored_runAll hc.refl ihe).bind fun hxs => ?_
    refine (stored_runFields hc.refl ihf).bind fun hfs => ?_
    exact (stored_alloc hc.refl (.record hxs hfs.2 (hfs.1 ▸ hn))).map fun h => h
  | feature _ _ hn ihe ihf =>
    refine ihe.bind fun hv => (stored_store hc.refl hv).bind fun hx => ?_
    refine (stored_runFields hc.refl ihf).bind fun hfs => ?_
    exact (stored_alloc hc.refl (.feature _ hx hfs.2 (hfs.1 ▸ hn))).map fun h => h
  | function _ _ hn ihf =>
    refine (stored_runFields hc.refl ihf).bind fun hfs => ?_
    exact (stored_alloc hc.refl (.function hc.refl _ _ _ hfs.2 (hfs.1 ▸ hn))).map fun h => h
  | listOf _ ih =>
    refine Stored.map (Q := fun t u => (Object.type t).Trails R (.type u)) ?_ fun h => h
    refine ih.bind fun hv => (stored_store hc.refl hv).bind fun hx => ?_
    exact stored_pure (.listOf hx)
  | featureOf _ ih =>
    refine Stored.map (Q := fun t u => (Object.type t).Trails R (.type u)) ?_ fun h => h
    refine ih.bind fun hv => (stored_store hc.refl hv).bind fun hx => ?_
    exact stored_pure (.featureOf hx)
  | object _ _ hn ihe ihf =>
    refine Stored.map (Q := fun t u => (Object.type t).Trails R (.type u)) ?_ fun h => h
    refine (stored_runAll hc.refl ihe).bind fun hxs => ?_
    refine (stored_runFields hc.refl ihf).bind fun hfs => ?_
    exact stored_pure (.object hxs hfs.2 (hfs.1 ▸ hn))
  | generic h => exact stored_pure (Q := Value.Trails R) (Object.Trails.refl hc.refl _)
  | @apply e es he _ ih =>
    refine (stored_runArgs hc.refl ih).bind fun {args args'} hargs => ?_
    rw [← bind_assoc, ← bind_assoc]
    refine (stored_clear_asType hc he).bind fun {t u} htu => ?_
    subst htu
    cases t.generic? with
    | none => exact stored_lift trivial
    | some site => exact (stored_alloc hc.refl (.apply hc.refl hargs)).map fun h => h

end Expressions

end Sight

end Comptime
