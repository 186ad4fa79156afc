import Comptime.Proofs.Lockstep.Basic

/-! Expressions evaluate in lockstep, as far as specializing does. -/
namespace Comptime

/-- The expression writes a type out, and the type names only generics of `C`. -/
inductive Expr.Written (C : Generic → Prop) : Expr → Prop
  | type {t : TypeExpr} (ht : ∀ g, t = .generic g → C g) : Written C (.type t)
  | apply {e : Expr} {es : Option (List Expr)} (he : Written C e) : Written C (.apply e es)

namespace Lockstep

/-- What is asked of one part of an expression, if generics of `C` can be specialized. -/
def Allows (s : Lockstep) (C : Generic → Prop) : Expr → Prop
  | .lit x => s.Steady x
  | .var v => s.reads (.var v)
  | .slot a | .lazySlot a => s.reads (.slot a)
  | .function _ _ body _ => ∀ x ∈ Stmt.itemsAll body, s.Steady x
  | .type (.generic g) => s.generic g
  | .qualify e _ => (∀ g, s.generic g → C g) ∨ e.Written C
  | _ => True

/-- Specializing types that name only generics of `C` is done in lockstep. -/
def Qualifies (s : Lockstep) (C : Generic → Prop) (q q' : Qualifier) : Prop :=
  ∀ ⦃chain chain' t u args args'⦄, s.Chains chain chain' → s.PairType t u →
    (∀ g ∈ t.generics, C g) → s.PairArgs args args' →
    s.Alike s.Pair (q chain t args) (q' chain' u args')

variable {s : Lockstep} {α β γ δ : Type} {R : α → β → Prop} {Q : γ → δ → Prop} {c : Eval α}
  {c' : Eval β} {f : α → Eval γ} {f' : β → Eval δ}

section Computations

theorem alike_lift {o : Outcome α} {o' : Outcome β} (h : s.Ends R o o') :
    s.Alike R (Run.lift o) (Run.lift o') :=
  fun _ _ hh => Or.inr ⟨hh, h⟩

theorem alike_pure {a : α} {b : β} (h : R a b) : s.Alike R (pure a) (pure b) :=
  alike_lift (.resolved h)

theorem alike_fail {e e' : Fault} (he : e' = e.rename s.ren) (hne : e ≠ .tooDeep) :
    s.Alike R (Run.fail e) (Run.fail e') :=
  alike_lift (he ▸ ends_failed hne)

theorem alike_tooDeep (h : s.cutOff) : s.Alike R (Run.fail .tooDeep) c' :=
  fun _ _ _ => Or.inl ⟨h, rfl⟩

theorem alike_deep (h : s.deep) : s.Alike R (Run.fail .tooDeep) (Run.fail .tooDeep) :=
  alike_lift (.failed ⟨fun _ => h, rfl⟩)

theorem Alike.bind (h : s.Alike R c c') (hf : ∀ {a b}, R a b → s.Alike Q (f a) (f' b)) :
    s.Alike Q (c >>= f) (c' >>= f') := by
  intro heap heap' hh
  have hcase := h hh
  rw [Run.bind_apply, Run.bind_apply]
  match hc : c heap, hc' : c' heap' with
  | (o, heap₁), (o', heap₁') =>
    rw [hc, hc'] at hcase
    obtain ⟨hcut, hdeep⟩ | ⟨hheaps, hends⟩ := hcase
    · cases hdeep
      exact Or.inl ⟨hcut, rfl⟩
    · cases hends with
      | resolved hab => exact hf hab hheaps
      | pending => exact Or.inr ⟨hheaps, .pending⟩
      | failed he => exact Or.inr ⟨hheaps, .failed he⟩

theorem Alike.map {g : α → γ} {g' : β → δ} (h : s.Alike R c c')
    (hg : ∀ {a b}, R a b → Q (g a) (g' b)) : s.Alike Q (g <$> c) (g' <$> c') := by
  rw [map_eq_pure_bind, map_eq_pure_bind]
  exact h.bind fun hab => alike_pure (hg hab)

theorem Alike.mono {P : α → β → Prop} (h : s.Alike R c c') (hR : ∀ {a b}, R a b → P a b) :
    s.Alike P c c' :=
  fun _ _ hh => (h hh).imp_right fun hcase => ⟨hcase.1, hcase.2.mono fun _ _ => hR⟩

theorem alike_alloc {o p : Object} (ho : s.PairObject o p) :
    s.Alike s.Pair (Eval.alloc o) (Eval.alloc p) :=
  fun _ _ hh => Or.inr ⟨hh.alloc ho, .resolved hh.pair_alloc⟩

/-- What is read off the heaps corresponds as the heaps do. -/
theorem alike_state {g : Heap → Eval γ} {g' : Heap → Eval δ}
    (h : ∀ {heap heap'}, s.Heaps heap heap' → s.Alike Q (g heap) (g' heap')) :
    s.Alike Q (Run.state >>= g) (Run.state >>= g') :=
  fun _ _ hh => h hh hh

end Computations

section Values

variable {x y : Item} {t u : TypeValue} {v w : Value} {args args' : Option (List Item)}
  {chain chain' : Chain}

theorem alike_store (h : s.PairValue v w) : s.Alike s.Pair v.store w.store := by
  match v, w, h with
  | .item x, .item y, h => exact alike_pure h
  | .type t, .type u, h => exact alike_alloc h.object

theorem alike_asType (h : s.PairValue v w) : s.Alike s.PairType v.asType w.asType := by
  match v, w, h with
  | .type t, .type u, h => exact alike_pure h
  | .item x, .item y, h =>
    have hxy : s.Pair x y := h
    refine alike_state fun {heap heap'} hh => ?_
    rw [hh.type?_eq hxy]
    cases ht : heap.type? x with
    | none => exact alike_fail (congrArg Fault.notType hxy.2) (by simp)
    | some t => exact alike_pure (hh.type? hxy ht)

theorem alike_member (hc : s.Chains chain chain') (hxy : s.Pair x y) (name : String) :
    s.Alike s.Pair (chain.member x name) (chain'.member y name) := by
  refine alike_state fun {heap heap'} hh => ?_
  have hmember : (heap'.object? y).bind (·.member? name) =
      ((heap.object? x).bind (·.member? name)).map (Item.rename s.ren) := by
    rw [hxy.2, hh.mirrors.object? hxy.1.within]
    cases heap.object? x with
    | none => rfl
    | some o => exact o.member?_rename _ name
  rw [hmember]
  cases hz : (heap.object? x).bind (·.member? name) with
  | none => exact alike_fail (congrArg (Fault.noMember · name) hxy.2) (by simp)
  | some z =>
    obtain ⟨o, ho, hoz⟩ := Option.bind_eq_some_iff.mp hz
    have hpair : s.Pair z (z.rename s.ren) :=
      ⟨(hh.object? hxy ho).shows z (Object.mem_held_of_member? hoz), rfl⟩
    cases z with
    | hole p =>
      have hread := ends_read hc (hpair.1.reads p rfl)
      cases p <;> exact alike_lift hread
    | _ => exact alike_pure hpair

/-- Noting corresponding arguments on corresponding types gives such types. -/
theorem PairType.apply (ht : s.PairType t u) (ha : s.PairArgs args args') :
    s.PairType (t.apply args) (u.apply args') := by
  refine ⟨fun x hx => ?_, fun g hg => ht.generic g (t.generics_apply args hg), ?_⟩
  · rcases TypeValue.mem_held_apply hx with hx | ⟨xs, hxs, hx⟩
    · exact ht.shows x hx
    · exact ha.1 xs hxs x hx
  · rw [TypeValue.rename_apply, ht.eq, ha.2]

/-- A type just stored is read back as it is. -/
theorem alike_alloc_asType {C : Generic → Prop} (ht : s.PairType t u) (hC : ∀ g ∈ t.generics, C g) :
    s.Alike (fun t u => s.PairType t u ∧ ∀ g ∈ t.generics, C g)
      (Eval.alloc (.type t) >>= fun x => (Value.item x).asType)
      (Eval.alloc (.type u) >>= fun x => (Value.item x).asType) := by
  have hread : ∀ (t : TypeValue) (heap : Heap),
      (Eval.alloc (.type t) >>= fun x => (Value.item x).asType) heap =
        (.resolved t, heap.alloc (.type t)) := by
    intro t heap
    have htype : (heap.alloc (.type t)).type? (.ref heap.size) = some t := by
      simp [Heap.type?, Heap.object?, Item.ref?, Heap.get?_alloc]
    simp only [Run.bind_apply, Eval.alloc, Value.asType, Run.state, htype]
    rfl
  intro heap heap' hh
  rw [hread, hread]
  exact Or.inr ⟨hh.alloc ht.object, .resolved ⟨ht, hC⟩⟩

end Values

section Expressions

variable {C : Generic → Prop} {q q' : Qualifier} {chain chain' : Chain}

theorem alike_apply (op : Op) {x y x' y' : Item} (hx : s.Pair x x') (hy : s.Pair y y') :
    s.Alike s.Pair (Run.lift (.ofExcept (op.apply x y)))
      (Run.lift (.ofExcept (op.apply x' y'))) := by
  intro heap heap' hh
  refine Or.inr ⟨hh, ?_⟩
  obtain ⟨hxw, rfl⟩ := hx
  obtain ⟨hyw, rfl⟩ := hy
  have hres := Op.apply_rename hh.mirrors (fun _ _ h => h) hxw.within hyw.within op
  cases h : op.apply x y with
  | ok z =>
    cases h' : op.apply (x.rename s.ren) (y.rename s.ren) with
    | error e =>
      rw [h, h'] at hres
      exact hres.elim
    | ok z' =>
      rw [h, h'] at hres
      obtain ⟨rfl, hz, hp⟩ := hres
      exact .resolved (pair_const hz hp)
  | error e =>
    cases h' : op.apply (x.rename s.ren) (y.rename s.ren) with
    | ok z' =>
      rw [h, h'] at hres
      exact (hres trivial).elim
    | error e' =>
      rw [Op.apply_error h, Op.apply_error h']
      exact ends_failed (by simp)

mutual

theorem alike_run (hq : s.Qualifies C q q') (hc : s.Chains chain chain') {e : Expr}
    (he : Admits (s.Allows C) (e.parts false)) :
    s.Alike s.PairValue (e.run q chain) (e.run q' chain') := by
  cases e with
  | lit x => exact alike_pure (Steady.pair (he _ List.mem_cons_self))
  | var v =>
    refine (alike_lift (hc.var (he _ List.mem_cons_self))).bind fun {x y} hxy => ?_
    obtain ⟨hx, rfl⟩ := hxy
    cases x with
    | none => exact alike_pure (R := s.PairValue) (pair_const (by simp) (by simp))
    | some x => exact alike_pure (R := s.PairValue) ⟨hx x rfl, rfl⟩
  | slot a => exact (alike_lift (hc.slot (he _ List.mem_cons_self))).map fun h => h
  | lazySlot a =>
    have ha : s.reads (.slot a) := he _ List.mem_cons_self
    have h := hc.slot ha
    rw [Expr.run, Expr.run]
    revert h
    cases Chain.readSlot chain a <;> cases Chain.readSlot chain' a <;> intro h <;> cases h
    case resolved.resolved.resolved h => exact alike_pure (R := s.PairValue) h
    case pending.pending.pending =>
      refine alike_pure (R := s.PairValue) (Steady.pair (steady_const (by simp) ?_))
      rintro p ⟨⟩
      exact ha
    case failed.failed.failed h => exact alike_lift (.failed h)
  | seq es =>
    rw [Expr.parts, admits_cons] at he
    exact (alike_runAll hq hc he.2).bind fun hxs => (alike_alloc hxs.seq).map fun h => h
  | record es fs =>
    rw [Expr.parts, admits_cons, admits_append] at he
    refine (alike_runAll hq hc he.2.1).bind fun hxs => ?_
    refine (alike_runFields hq hc he.2.2).bind fun hfs => ?_
    exact (alike_alloc (hxs.record hfs)).map fun h => h
  | anchor name => exact (alike_alloc (pairObject_anchor name)).map fun h => h
  | feature name e fs =>
    rw [Expr.parts, admits_cons, admits_append] at he
    refine (alike_run hq hc he.2.1).bind fun hv => (alike_store hv).bind fun hx => ?_
    refine (alike_runFields hq hc he.2.2).bind fun hfs => ?_
    exact (alike_alloc (hx.feature name hfs)).map fun h => h
  | type t =>
    rw [Expr.parts, admits_cons] at he
    refine (alike_runType hq hc he.2 ?_).map fun h => h.1
    rintro g rfl
    exact he.1
  | apply e es =>
    rw [Expr.parts, admits_cons, admits_append] at he
    refine (alike_runArgs hq hc he.2.1).bind fun hargs => ?_
    refine (alike_run hq hc he.2.2).bind fun hv => (alike_asType hv).bind fun {t u} ht => ?_
    rw [ht.generic?_eq]
    cases t.generic? with
    | none => exact alike_fail (congrArg Fault.notApplicable ht.eq) (by simp)
    | some site => exact (alike_alloc (ht.apply hargs).object).map fun h => h
  | qualify e es =>
    rw [Expr.parts, admits_cons, admits_append] at he
    refine (alike_runArgs hq hc he.2.1).bind fun {args args'} hargs => ?_
    -- The operand may come from anywhere only if every generic at hand can be specialized.
    have htype : s.Alike (fun t u => s.PairType t u ∧ ∀ g ∈ t.generics, C g)
        (e.run q chain >>= Value.asType) (e.run q' chain' >>= Value.asType) := by
      rcases he.1 with hall | hw
      · refine (alike_run hq hc he.2.2).bind fun hv => ?_
        exact (alike_asType hv).mono fun ht => ⟨ht, fun g hg => hall g (ht.generic g hg)⟩
      · exact alike_runWritten hq hc he.2.2 hw
    rw [← bind_assoc (e.run q chain) Value.asType, ← bind_assoc (e.run q' chain') Value.asType]
    refine htype.bind fun {t u} ht => ?_
    exact (hq hc ht.1 ht.2 hargs).map fun h => h
  | function name params body fs =>
    rw [Expr.parts, admits_cons] at he
    refine (alike_runFields hq hc he.2).bind fun hfs => ?_
    exact (alike_alloc (hfs.function name params he.1)).map fun h => h
  | member e name =>
    rw [Expr.parts, admits_cons] at he
    refine (alike_run hq hc he.2).bind fun hv => (alike_store hv).bind fun hx => ?_
    exact (alike_member hc hx name).map fun h => h
  | contains e d =>
    rw [Expr.parts, admits_cons, admits_append] at he
    refine (alike_run hq hc he.2.1).bind fun hv => (alike_asType hv).bind fun {t u} ht => ?_
    refine (alike_run hq hc he.2.2).bind fun hw => (alike_store hw).bind fun {x y} hx => ?_
    refine alike_state fun {heap heap'} hh => ?_
    have hkind : ∀ z ∈ t.kind.children.map Prod.snd, z.Within s.dom := by
      intro z hz
      refine (ht.shows z ?_).within
      rw [Object.children, List.map_append]
      exact List.mem_append_left _ hz
    rw [ht.eq, hx.2, TypeValue.contains_rename hh.mirrors (fun _ _ h => h) hkind hx.1.within]
    exact alike_pure (R := s.PairValue) (pair_const (by simp) (by simp))
  | binary op a b =>
    rw [Expr.parts, admits_cons, admits_append] at he
    refine (alike_run hq hc he.2.1).bind fun hv => (alike_store hv).bind fun hx => ?_
    refine (alike_run hq hc he.2.2).bind fun hw => (alike_store hw).bind fun hy => ?_
    exact (alike_apply op hx hy).map fun h => h

theorem alike_runAll (hq : s.Qualifies C q q') (hc : s.Chains chain chain') {es : List Expr}
    (he : Admits (s.Allows C) (Expr.partsAll false es)) :
    s.Alike s.Pairs (Expr.runAll q chain es) (Expr.runAll q' chain' es) := by
  cases es with
  | nil => exact alike_pure pairs_nil
  | cons e es =>
    rw [Expr.partsAll, admits_append] at he
    refine (alike_run hq hc he.1).bind fun hv => (alike_store hv).bind fun hx => ?_
    exact (alike_runAll hq hc he.2).bind fun hxs => alike_pure (hx.cons hxs)

theorem alike_runFields (hq : s.Qualifies C q q') (hc : s.Chains chain chain')
    {fs : List (String × Expr)} (he : Admits (s.Allows C) (Expr.partsFields false fs)) :
    s.Alike s.PairFields (Expr.runFields q chain fs) (Expr.runFields q' chain' fs) := by
  match fs with
  | [] => exact alike_pure pairFields_nil
  | (name, e) :: fs =>
    rw [Expr.partsFields, admits_append] at he
    refine (alike_run hq hc he.1).bind fun hv => (alike_store hv).bind fun hx => ?_
    exact (alike_runFields hq hc he.2).bind fun hfs => alike_pure (hx.consField name hfs)

theorem alike_runArgs (hq : s.Qualifies C q q') (hc : s.Chains chain chain')
    {es : Option (List Expr)} (he : Admits (s.Allows C) (Expr.partsArgs false es)) :
    s.Alike s.PairArgs (Expr.runArgs q chain es) (Expr.runArgs q' chain' es) := by
  match es with
  | none => exact alike_pure ⟨by simp, rfl⟩
  | some es =>
    have hall : Admits (s.Allows C) (Expr.partsAll false es) := he
    refine (alike_runAll hq hc hall).map fun {xs ys} hxs => ⟨?_, congrArg some hxs.2⟩
    rintro _ ⟨⟩
    exact hxs.1

/-- A type expression names no generic but the one it is, if it is one. -/
theorem alike_runType (hq : s.Qualifies C q q') (hc : s.Chains chain chain') {t : TypeExpr}
    (ht : Admits (s.Allows C) (t.parts false)) (hg : ∀ g, t = .generic g → s.generic g) :
    s.Alike (fun v w => s.PairType v w ∧ ∀ g ∈ v.generics, t = .generic g) (t.run q chain)
      (t.run q' chain') := by
  have hkind : ∀ {k k' : TypeKind}, (∀ site, k ≠ .generic site) →
      (∀ x ∈ k.children.map Prod.snd, s.Shows x) → k' = k.rename s.ren →
      s.PairType { kind := k } { kind := k' } ∧
        ∀ g ∈ ({ kind := k } : TypeValue).generics, t = .generic g := by
    intro k k' hne hk he
    have hnone : ({ kind := k } : TypeValue).generics = [] := by
      cases k with
      | generic site => exact absurd rfl (hne site)
      | _ => rfl
    rw [hnone]
    refine ⟨⟨?_, ?_, ?_⟩, by simp⟩
    · simpa [Object.children, TypeValue.arguments] using hk
    · simp [hnone]
    · rw [he]
      rfl
  cases t with
  | listOf e =>
    refine (alike_run hq hc ht).bind fun hv => (alike_store hv).bind fun hx => alike_pure ?_
    exact hkind (by simp) (by simpa [TypeKind.children] using hx.1) (congrArg TypeKind.listOf hx.2)
  | feature e =>
    refine (alike_run hq hc ht).bind fun hv => (alike_store hv).bind fun hx => alike_pure ?_
    exact hkind (by simp) (by simpa [TypeKind.children] using hx.1) (congrArg TypeKind.feature hx.2)
  | object es fs =>
    rw [TypeExpr.parts, admits_append] at ht
    refine (alike_runAll hq hc ht.1).bind fun hxs => ?_
    refine (alike_runFields hq hc ht.2).bind fun hfs => alike_pure ?_
    refine hkind (by simp) ?_ (congrArg₂ TypeKind.object hxs.2 hfs.2)
    simp only [TypeKind.children, List.map_append, List.forall_mem_append]
    exact ⟨fun x hx => hxs.1 x (mem_indexed_items.mp hx),
      fun x hx => hfs.1 x (mem_named_items.mp hx)⟩
  | generic site =>
    refine alike_pure ⟨⟨fun x hx => (nomatch hx), fun g hmem => ?_, rfl⟩, fun g hmem => ?_⟩
    · cases List.mem_singleton.mp hmem
      exact hg site rfl
    · cases List.mem_singleton.mp hmem
      rfl
  | _ => exact alike_pure (hkind (by simp) (fun x hx => nomatch hx) rfl)

/-- A type that is written out names only the generics that are. -/
theorem alike_runWritten (hq : s.Qualifies C q q') (hc : s.Chains chain chain') {e : Expr}
    (he : Admits (s.Allows C) (e.parts false)) (hw : e.Written C) :
    s.Alike (fun t u => s.PairType t u ∧ ∀ g ∈ t.generics, C g) (e.run q chain >>= Value.asType)
      (e.run q' chain' >>= Value.asType) := by
  cases e with
  | type t =>
    rw [Expr.parts, admits_cons] at he
    obtain ⟨ht⟩ := hw
    have hrun := alike_runType hq hc he.2 (by rintro g rfl; exact he.1)
    have h := hrun.mono (P := fun t u => s.PairType t u ∧ ∀ g ∈ t.generics, C g)
      fun h => ⟨h.1, fun g hg => ht g (h.2 g hg)⟩
    rw [Expr.run, Expr.run, bind_map_left, bind_map_left]
    exact h.bind fun ht => alike_pure ht
  | apply e es =>
    rw [Expr.parts, admits_cons, admits_append] at he
    cases hw with
    | apply hw =>
      have hrun := alike_runWritten hq hc he.2.2 hw
      rw [Expr.run, Expr.run, bind_assoc, bind_assoc]
      refine (alike_runArgs hq hc he.2.1).bind fun {args args'} hargs => ?_
      simp only [bind_assoc]
      rw [← bind_assoc (e.run q chain) Value.asType, ← bind_assoc (e.run q' chain') Value.asType]
      refine hrun.bind fun {t u} ht => ?_
      rw [ht.1.generic?_eq]
      cases t.generic? with
      | none => exact alike_fail (congrArg Fault.notApplicable ht.1.eq) (by simp)
      | some site =>
        dsimp only
        rw [bind_map_left, bind_map_left]
        exact alike_alloc_asType (ht.1.apply hargs)
          fun g hg => ht.2 g (t.generics_apply args hg)
  | _ => cases hw

end

end Expressions

end Lockstep

end Comptime
