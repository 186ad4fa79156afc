import Comptime.Proofs.Renaming.Reading
import Comptime.Proofs.Renumbering.Simulation

/-! Expressions evaluate alike on both sides, up to the link, as far as specializing does. -/
namespace Comptime

variable {ρ : Renumbering} {n : Nat} {σ τ : Link} {l r : Prop} {heap heap' : Heap}
  {chain chain' : Chain} {q q' : Qualifier} {x y : Item} {t u : TypeValue}
  {args args' : Option (List Item)}

theorem Link.pair_const (hx : ∀ h, x ≠ .ref h) (hp : ∀ p, x ≠ .hole p) : σ.Pair ρ x x := by
  refine ⟨fun h he => absurd he (hx h), ?_⟩
  cases x with
  | ref h => exact absurd rfl (hx h)
  | hole p => exact absurd rfl (hp p)
  | _ => rfl

/-- What names objects that were handed in is the same on both sides. -/
theorem Link.Chains.rename_lit (h : σ.Chains ρ n l r chain chain') (hx : x.Within (· < n)) :
    x.rename ρ.items = x.rename (ρ.renaming σ.map) :=
  Item.rename_congr (fun k hk => (h.based (hx k hk)).2.symm) rfl

theorem Link.Chains.within_lit (h : σ.Chains ρ n l r chain chain') (hx : x.Within (· < n)) :
    x.Within σ.dom :=
  hx.mono fun _ hk => (h.based hk).1

theorem Link.Chains.pair_lit (h : σ.Chains ρ n l r chain chain') (hx : x.Within (· < n)) :
    σ.Pair ρ x (x.rename ρ.items) :=
  ⟨h.within_lit hx, h.rename_lit hx⟩

/-- Noting paired arguments on paired types gives paired types. -/
theorem Link.PairType.apply (ht : σ.PairType ρ n t u) (ha : σ.PairArgs ρ args args') :
    σ.PairType ρ n (t.apply args) (u.apply args') := by
  obtain ⟨hp, hc, rfl⟩ := ht
  refine ⟨TypeValue.plain_iff.mpr fun g hg => ?_, fun x hx => ?_, ?_⟩
  · exact TypeValue.plain_iff.mp hp g (t.generics_apply args hg)
  · rcases TypeValue.mem_held_apply hx with hx | ⟨xs, hxs, hx⟩
    · exact hc x hx
    · exact ha.1 xs hxs x hx
  · rw [TypeValue.rename_apply, ha.2]

section Values

theorem Value.sim_store {v w : Value} (h : σ.PairValue ρ n v w) :
    Eval.Sim ρ n l r (fun τ => τ.Pair ρ) σ v.store w.store := by
  cases v with
  | item x =>
    cases w with
    | item y => exact Eval.sim_pure fun hs => Link.Pair.mono h hs.toSub
    | type u => exact h.elim
  | type t =>
    cases w with
    | item y => exact h.elim
    | type u =>
      have ht : σ.PairType ρ n t u := h
      refine Eval.sim_alloc ht.object ?_
      rintro _ ⟨⟩
      exact ht.1

theorem Value.sim_asType {v w : Value} (h : σ.PairValue ρ n v w) :
    Eval.Sim ρ n l r (fun τ => τ.PairType ρ n) σ v.asType w.asType := by
  cases v with
  | type t =>
    cases w with
    | item y => exact h.elim
    | type u => exact Eval.sim_pure fun hs => Link.PairType.mono h hs.toSub
  | item x =>
    cases w with
    | type u => exact h.elim
    | item y =>
      refine Eval.sim_state fun {τ heap heap'} hs hh => ?_
      have hxy := Link.Pair.mono h hs.toSub
      cases ht : heap.type? x with
      | none =>
        rw [hh.type?_eq_none hxy ht]
        exact Eval.sim_fail
      | some t =>
        obtain ⟨u, hu, htu⟩ := hh.type? hxy ht
        rw [hu]
        exact Eval.sim_pure fun hs => htu.mono hs.toSub

theorem Chain.sim_member (hc : σ.Chains ρ n l r chain chain') (hxy : σ.Pair ρ x y)
    (name : String) :
    Eval.Sim ρ n l r (fun τ => τ.Pair ρ) σ (chain.member x name) (chain'.member y name) := by
  refine Eval.sim_state fun {τ heap heap'} hs hh => ?_
  have hxy' := hxy.mono hs.toSub
  have hmember : (heap'.object? y).bind (·.member? name) =
      ((heap.object? x).bind (·.member? name)).map (Item.rename (ρ.renaming τ.map)) := by
    rw [hxy'.2, hh.mirrors.object? hxy'.1]
    cases heap.object? x with
    | none => rfl
    | some o => exact o.member?_rename _ name
  rw [hmember]
  cases hz : (heap.object? x).bind (·.member? name) with
  | none => exact Eval.sim_fail
  | some z =>
    obtain ⟨o, ho, hoz⟩ := Option.bind_eq_some_iff.mp hz
    have hpair : τ.Pair ρ z (z.rename (ρ.renaming τ.map)) :=
      ⟨Object.within_member? (hh.mirrors.within_children hxy'.1 ho) hoz, rfl⟩
    cases z with
    | hole p =>
      refine Eval.sim_lift ?_
      exact (Link.sim_read (hc.le hs).frames p _).mono id id fun a b hab _ hs => hab.mono hs.toSub
    | _ => exact Eval.sim_pure fun hs => hpair.mono hs.toSub

end Values

variable (ρ n) in
/-- Specializing gives paired results for paired types and arguments, in paired chains. -/
def Qualifier.Sim (q q' : Qualifier) : Prop :=
  ∀ ⦃l r σ chain chain' t u args args'⦄, σ.Chains ρ n l r chain chain' → σ.PairType ρ n t u →
    σ.PairArgs ρ args args' →
    Eval.Sim ρ n l r (fun τ => τ.Pair ρ) σ (q chain t args) (q' chain' u args')

mutual

theorem Expr.sim_run (hq : Qualifier.Sim ρ n q q') {σ : Link}
    (hc : σ.Chains ρ n l r chain chain') {e : Expr} (he : e.Plain n) :
    Eval.Sim ρ n l r (fun τ => τ.PairValue ρ n) σ (e.run q chain)
      ((e.renumber ρ).run q' chain') := by
  cases e with
  | lit x => exact Eval.sim_pure fun hs => (hc.le hs).pair_lit he
  | var v =>
    have hr : Eval.Sim ρ n l r (fun τ => τ.PairValue? ρ) σ (Run.lift (Chain.readVar chain v))
        (Run.lift (Chain.readVar chain' v)) := by
      refine Eval.sim_lift ((Link.sim_readVar hc.frames v).mono id id fun a b hab τ hs => ?_)
      cases a <;> cases b
      · trivial
      · exact hab
      · exact hab
      · exact Link.Pair.mono hab hs.toSub
    refine hr.bind fun {τ a b} hs hab => ?_
    cases a <;> cases b
    · exact Eval.sim_pure fun _ => Link.pair_const (by simp) (by simp)
    · exact hab.elim
    · exact hab.elim
    · exact Eval.sim_pure fun hs => Link.Pair.mono hab hs.toSub
  | slot a =>
    have hr : Eval.Sim ρ n l r (fun τ => τ.Pair ρ) σ (Run.lift (Chain.readSlot chain a))
        (Run.lift (Chain.readSlot chain' (ρ.slot a))) :=
      Eval.sim_lift ((Link.sim_readSlot hc.frames a).mono id id
        fun _ _ hab _ hs => hab.mono hs.toSub)
    exact hr.map fun hxy => hxy
  | lazySlot a => exact he.elim
  | seq es =>
    refine (Expr.sim_runAll hq hc he).bind fun hs hxs => ?_
    exact (Eval.sim_alloc hxs.seq (Object.plain_of_not_type (by simp))).map fun hxy => hxy
  | record es fs =>
    refine (Expr.sim_runAll hq hc he.1).bind fun hs hxs => ?_
    refine (Expr.sim_runFields hq (hc.le hs) he.2).bind fun hs' hfs => ?_
    have ho := (hxs.mono hs'.toSub).record hfs
    exact (Eval.sim_alloc ho (Object.plain_of_not_type (by simp))).map fun hxy => hxy
  | anchor name =>
    exact (Eval.sim_alloc (Link.pairObject_anchor name)
      (Object.plain_of_not_type (by simp))).map fun hxy => hxy
  | feature name e fs =>
    refine (Expr.sim_run hq hc he.1).bind fun hs hv => (Value.sim_store hv).bind
      fun hs' hx => ?_
    refine (Expr.sim_runFields hq (hc.le (hs.trans hs')) he.2).bind fun hs'' hfs => ?_
    have ho := (hx.mono hs''.toSub).feature name hfs
    exact (Eval.sim_alloc ho (Object.plain_of_not_type (by simp))).map fun hxy => hxy
  | type t => exact (TypeExpr.sim_run hq hc he).map fun ht => ht
  | apply e es =>
    refine (Expr.sim_runArgs hq hc he.2).bind fun hs hargs => ?_
    refine (Expr.sim_run hq (hc.le hs) he.1).bind fun hs' hv => (Value.sim_asType hv).bind
      fun {τ t u} hs'' ht => ?_
    have hap := ht.apply (hargs.mono (hs'.trans hs'').toSub)
    have hgen : u.generic? = t.generic?.map (GenericOf.renumber ρ) := by
      rw [ht.2.2]
      exact TypeValue.generic?_rename _ t
    rw [hgen]
    cases t.generic? with
    | none => exact Eval.sim_fail
    | some site =>
      refine (Eval.sim_alloc hap.object ?_).map fun hxy => hxy
      rintro _ ⟨⟩
      exact hap.1
  | qualify e es =>
    refine (Expr.sim_runArgs hq hc he.2).bind fun hs hargs => ?_
    refine (Expr.sim_run hq (hc.le hs) he.1).bind fun hs' hv => (Value.sim_asType hv).bind
      fun hs'' ht => ?_
    have hlast := hs'.trans hs''
    exact (hq (hc.le (hs.trans hlast)) ht (hargs.mono hlast.toSub)).map fun hxy => hxy
  | function name params body fs =>
    refine (Expr.sim_runFields hq hc he.2).bind fun {τ ys zs} hs hfs => ?_
    have hc' := hc.le hs
    have hbody : Stmt.renameAll ρ.items body = Stmt.renameAll (ρ.renaming τ.map) body :=
      Stmt.renameAll_congr (fun x hx => hc'.rename_lit (he.1 x hx)) rfl
    have ho : τ.PairObject ρ (.function ⟨name, params, body, ys⟩)
        (.function ⟨name, params, Stmt.renameAll ρ.items body, zs⟩) := by
      refine ⟨?_, ?_⟩
      · simp only [Object.children, List.map_append, List.forall_mem_append]
        exact ⟨fun x hx => hfs.1 x (mem_named_items.mp hx),
          fun x hx => hc'.within_lit (he.1 x (mem_indexed_items.mp hx))⟩
      · rw [hbody, hfs.2]
        rfl
    exact (Eval.sim_alloc ho (Object.plain_of_not_type (by simp))).map fun hxy => hxy
  | member e name =>
    refine (Expr.sim_run (e := e) hq hc he).bind fun hs hv => (Value.sim_store hv).bind
      fun hs' hx => ?_
    exact (Chain.sim_member (hc.le (hs.trans hs')) hx name).map fun hxy => hxy
  | contains e d =>
    refine (Expr.sim_run hq hc he.1).bind fun hs hv => (Value.sim_asType hv).bind
      fun hs' ht => ?_
    refine (Expr.sim_run hq (hc.le (hs.trans hs')) he.2).bind fun hs'' hw =>
      (Value.sim_store hw).bind fun hs''' hx => Eval.sim_state fun {υ heap heap'} hs₅ hh => ?_
    obtain ⟨-, hchildren, rfl⟩ := ht.mono ((hs''.trans hs''').trans hs₅).toSub
    obtain ⟨hwithin, rfl⟩ := hx.mono hs₅.toSub
    simp only [Object.children, List.map_append, List.forall_mem_append] at hchildren
    rw [TypeValue.contains_rename hh.mirrors (fun _ _ => ρ.slot_inj) hchildren.1 hwithin]
    exact Eval.sim_pure fun _ => Link.pair_const (by simp) (by simp)
  | binary op a b =>
    refine (Expr.sim_run hq hc he.1).bind fun hs hv => (Value.sim_store hv).bind
      fun {_ x x'} hs' hx => ?_
    refine (Expr.sim_run hq (hc.le (hs.trans hs')) he.2).bind fun hs'' hw =>
      (Value.sim_store hw).bind fun {τ y y'} hs''' hy => ?_
    have hr : Eval.Sim ρ n l r (fun τ => τ.Pair ρ) τ (Run.lift (.ofExcept (op.apply x y)))
        (Run.lift (.ofExcept (op.apply x' y'))) := by
      intro υ heap heap' hs₅ hh
      obtain ⟨hxw, rfl⟩ := hx.mono ((hs''.trans hs''').trans hs₅).toSub
      obtain ⟨hyw, rfl⟩ := hy.mono hs₅.toSub
      have hres := Op.apply_rename hh.mirrors (fun _ _ => ρ.slot_inj) hxw hyw op
      refine Outcome.Sim.mono hres.sim id id ?_
      rintro z _ ⟨rfl, hz, hz'⟩
      exact ⟨υ, .refl υ, hh, Link.pair_const hz hz'⟩
    exact hr.map fun hxy => hxy

theorem Expr.sim_runAll (hq : Qualifier.Sim ρ n q q') {σ : Link}
    (hc : σ.Chains ρ n l r chain chain') {es : List Expr} (he : Expr.PlainAll n es) :
    Eval.Sim ρ n l r (fun τ => τ.Pairs ρ) σ (Expr.runAll q chain es)
      (Expr.runAll q' chain' (Expr.renumberAll ρ es)) := by
  cases es with
  | nil => exact Eval.sim_pure fun _ => Link.pairs_nil
  | cons e es =>
    refine (Expr.sim_run hq hc he.1).bind fun hs hv => (Value.sim_store hv).bind
      fun hs' hx => ?_
    refine (Expr.sim_runAll hq (hc.le (hs.trans hs')) he.2).bind fun hs'' hxs => ?_
    exact Eval.sim_pure fun hs₅ => (hx.mono (hs''.trans hs₅).toSub).cons (hxs.mono hs₅.toSub)

theorem Expr.sim_runFields (hq : Qualifier.Sim ρ n q q') {σ : Link}
    (hc : σ.Chains ρ n l r chain chain') {fs : List (String × Expr)}
    (he : Expr.PlainFields n fs) :
    Eval.Sim ρ n l r (fun τ => τ.PairFields ρ) σ (Expr.runFields q chain fs)
      (Expr.runFields q' chain' (Expr.renumberFields ρ fs)) := by
  match fs with
  | [] => exact Eval.sim_pure fun _ => Link.pairFields_nil
  | (name, e) :: fs =>
    refine (Expr.sim_run hq hc he.1).bind fun hs hv => (Value.sim_store hv).bind
      fun hs' hx => ?_
    refine (Expr.sim_runFields hq (hc.le (hs.trans hs')) he.2).bind fun hs'' hfs => ?_
    exact Eval.sim_pure fun hs₅ =>
      (hx.mono (hs''.trans hs₅).toSub).consField name (hfs.mono hs₅.toSub)

theorem Expr.sim_runArgs (hq : Qualifier.Sim ρ n q q') {σ : Link}
    (hc : σ.Chains ρ n l r chain chain') {es : Option (List Expr)} (he : Expr.PlainArgs n es) :
    Eval.Sim ρ n l r (fun τ => τ.PairArgs ρ) σ (Expr.runArgs q chain es)
      (Expr.runArgs q' chain' (Expr.renumberArgs ρ es)) := by
  match es with
  | none => exact Eval.sim_pure fun _ => ⟨fun _ hz => (nomatch hz), rfl⟩
  | some es =>
    have hes : Expr.PlainAll n es := he
    refine (Expr.sim_runAll hq hc hes).map fun {τ xs ys} hxs => ⟨?_, congrArg some hxs.2⟩
    rintro _ ⟨⟩
    exact hxs.1

theorem TypeExpr.sim_run (hq : Qualifier.Sim ρ n q q') {σ : Link}
    (hc : σ.Chains ρ n l r chain chain') {t : TypeExpr} (ht : t.Plain n) :
    Eval.Sim ρ n l r (fun τ => τ.PairType ρ n) σ (t.run q chain)
      ((t.renumber ρ).run q' chain') := by
  have hkind : ∀ {τ : Link} {k k' : TypeKind}, (∀ site, k ≠ .generic site) →
      (∀ x ∈ k.children.map Prod.snd, x.Within τ.dom) → k' = k.rename (ρ.renaming τ.map) →
      τ.PairType ρ n { kind := k } { kind := k' } := by
    intro τ k k' hne hk he
    refine ⟨⟨fun site hs => absurd hs (hne site), by simp⟩, ?_, ?_⟩
    · simpa [Object.children, TypeValue.arguments] using hk
    · rw [he]
      rfl
  cases t with
  | listOf e =>
    refine (Expr.sim_run hq hc ht).bind fun hs hv => (Value.sim_store hv).bind
      fun hs' hx => Eval.sim_pure fun hs'' => ?_
    have hx' := hx.mono hs''.toSub
    exact hkind (by simp) (by simpa [TypeKind.children] using hx'.1)
      (congrArg TypeKind.listOf hx'.2)
  | feature e =>
    refine (Expr.sim_run hq hc ht).bind fun hs hv => (Value.sim_store hv).bind
      fun hs' hx => Eval.sim_pure fun hs'' => ?_
    have hx' := hx.mono hs''.toSub
    exact hkind (by simp) (by simpa [TypeKind.children] using hx'.1)
      (congrArg TypeKind.feature hx'.2)
  | object es fs =>
    refine (Expr.sim_runAll hq hc ht.1).bind fun hs hxs => ?_
    refine (Expr.sim_runFields hq (hc.le hs) ht.2).bind fun hs' hfs =>
      Eval.sim_pure fun hs'' => ?_
    have hxs' := hxs.mono (hs'.trans hs'').toSub
    have hfs' := hfs.mono hs''.toSub
    refine hkind (by simp) ?_ (congrArg₂ TypeKind.object hxs'.2 hfs'.2)
    simp only [TypeKind.children, List.map_append, List.forall_mem_append]
    exact ⟨fun x hx => hxs'.1 x (mem_indexed_items.mp hx),
      fun x hx => hfs'.1 x (mem_named_items.mp hx)⟩
  | generic site =>
    refine Eval.sim_pure fun hs => ⟨⟨?_, by simp⟩, fun x hx => (nomatch hx), rfl⟩
    rintro _ ⟨⟩
    exact ht
  | _ => exact Eval.sim_pure fun hs => hkind (by simp) (fun x hx => nomatch hx) rfl

end

theorem Expr.sim_evalWith (hq : Qualifier.Sim ρ n q q') (hc : σ.Chains ρ n l r chain chain')
    {e : Expr} (he : e.Plain n) :
    Eval.Sim ρ n l r (fun τ => τ.Pair ρ) σ (e.evalWith q chain)
      ((e.renumber ρ).evalWith q' chain') :=
  (Expr.sim_run hq hc he).bind fun _ hv => Value.sim_store hv

theorem GroupOf.sim_evalWith (hq : Qualifier.Sim ρ n q q')
    (hc : σ.Chains ρ n l r chain chain') {g : Group} (hg : g.Plain n) :
    Eval.Sim ρ n l r (fun τ => τ.Pair ρ) σ (g.evalWith q chain)
      ((g.renumber ρ).evalWith q' chain') := by
  obtain ⟨id, label, slots⟩ := g
  have hslots : Expr.PlainAll n slots := hg
  refine (Expr.sim_runAll hq hc hslots).bind fun {τ xs ys} hs hxs => Eval.sim_pure fun hs' => ?_
  obtain ⟨hwithin, rfl⟩ := hxs.mono hs'.toSub
  rw [List.getLast?_map]
  cases hx : xs.getLast? with
  | none => exact Link.pair_const (by simp) (by simp)
  | some x => exact ⟨hwithin x (List.mem_of_getLast? hx), rfl⟩

end Comptime
