import Comptime.Proofs.Lockstep.Specialization
import Mathlib

/-! Which evaluations come to an end. Specializations nest, and are cut off at some depth. An
evaluation that is not cut off does the same at every greater depth; and if the generics at hand
specialize only what they write out, then there is such a depth. -/
namespace Comptime

/-- The generics that an expression writes out, those inside of them left aside. -/
def Expr.generics (e : Expr) : List Generic :=
  (e.parts false).filterMap fun
    | .type (.generic g) => some g
    | _ => none

/-- The generics that stored types name, and those that expressions to be tried write out. -/
def World.generics (w : World) : List Generic :=
  w.heap.objects.toList.flatMap Object.generics ++
    w.context.frame.groups.flatMap fun g => g.slots.toList.flatMap fun s => s.expr.generics

/-- The generic specializes only types that it writes out, and so do those inside of it. -/
def GenericOf.FirstOrder (g : Generic) : Prop :=
  ∀ e es, .qualify e es ∈ GenericOf.parts true g → e.Written fun _ => True

/-- The number of expressions in the generic. -/
def GenericOf.size (g : Generic) : Nat := (GenericOf.parts true g).length

/-- From some depth on there is one result. At a lesser depth it is cut off. -/
def Finishes {α β : Type} (cutOff : α) (c : Nat → α × β) : Prop :=
  ∃ n r, r.1 ≠ cutOff ∧ (∀ depth, depth < n → (c depth).1 = cutOff) ∧
    ∀ depth, n ≤ depth → c depth = r

/-- It finishes, or else it is cut off at every depth and one of the generics is not first-order. -/
def FinishesUnlessNested {α β : Type} (gs : List Generic) (cutOff : α) (c : Nat → α × β) : Prop :=
  Finishes cutOff c ∨ (∀ depth, (c depth).1 = cutOff) ∧ ∃ g ∈ gs, ¬g.FirstOrder

theorem Expr.mem_generics {e : Expr} {g : Generic} :
    g ∈ e.generics ↔ .type (.generic g) ∈ e.parts false := by
  unfold Expr.generics
  rw [List.mem_filterMap]
  constructor
  · rintro ⟨p, hp, hg⟩
    split at hg
    · cases hg
      exact hp
    · cases hg
  · exact fun hp => ⟨_, hp, rfl⟩

/-- What is written out in a type that is written out. -/
theorem Expr.Written.imp {C D : Generic → Prop} {e : Expr} (he : e.Written C)
    (hD : ∀ g ∈ e.generics, D g) : e.Written D := by
  induction he with
  | type _ =>
    refine .type fun g hg => hD g (Expr.mem_generics.mpr ?_)
    rw [hg]
    exact Expr.mem_parts_self _
  | @apply e es _ ih =>
    refine .apply (ih fun g hg => hD g (Expr.mem_generics.mpr ?_))
    rw [Expr.parts]
    exact List.mem_cons_of_mem _ (List.mem_append_right _ (Expr.mem_generics.mp hg))

/-- A generic inside of a first-order one is smaller and is first-order too. -/
theorem GenericOf.FirstOrder.inside {g g' : Generic} (hg : g.FirstOrder)
    (h : (.type (.generic g') :: GenericOf.parts true g').Sublist (GenericOf.parts true g)) :
    g'.FirstOrder ∧ g'.size < g.size := by
  refine ⟨fun e es he => hg e es (h.subset (List.mem_cons_of_mem _ he)), ?_⟩
  have hle := h.length_le
  rwa [List.length_cons] at hle

/-- It is enough that more depth changes nothing but what is cut off, and that first-order generics
are cut off only where they are larger than the depth. -/
theorem finishesUnlessNested_of_deeper {α β : Type} {gs : List Generic} {cutOff : α}
    {c : Nat → α × β} (hdeeper : ∀ n m, n ≤ m → (c n).1 = cutOff ∨ c m = c n)
    (hfirst : ∀ n, (∀ g ∈ gs, g.FirstOrder ∧ g.size < n) → (c (n + 1)).1 ≠ cutOff) :
    FinishesUnlessNested gs cutOff c := by
  by_cases h : ∃ n, (c n).1 ≠ cutOff
  · classical
    have hn := Nat.find_spec h
    refine Or.inl ⟨Nat.find h, c (Nat.find h), hn, fun m hm => ?_, fun m hm => ?_⟩
    · exact not_not.mp (Nat.find_min h hm)
    · exact (hdeeper _ m hm).resolve_left hn
  · have hcut : ∀ depth, (c depth).1 = cutOff := fun depth => by_contra fun hn => h ⟨depth, hn⟩
    refine Or.inr ⟨hcut, by_contra fun hall => ?_⟩
    -- Were all of them first-order, their sizes together would be depth enough.
    have hsize : ∀ g ∈ gs, g.size < (gs.map GenericOf.size).sum + 1 := fun g hg =>
      Nat.lt_succ_of_le (List.le_sum_of_mem (List.mem_map_of_mem hg))
    exact hfirst _ (fun g hg => ⟨by_contra fun hn => hall ⟨g, hg, hn⟩, hsize g hg⟩) (hcut _)

namespace Lockstep

/-- Two runs from the same world. -/
def alone (P : Generic → Prop) (cutOff : Prop) : Lockstep where
  handle := id
  dom _ := True
  reads _ := True
  generic := P
  cutOff := cutOff
  deep := False

variable {P C : Generic → Prop} {cutOff : Prop} {α : Type} {heap heap' : Heap} {w w' : World}

theorem alone_steady (x : Item) : (alone P cutOff).Steady x :=
  ⟨⟨fun _ _ => trivial, fun _ _ => trivial⟩, fun _ _ => rfl⟩

theorem alone_heaps (hP : ∀ {h o}, heap.get? h = some o → ∀ g ∈ o.generics, P g) :
    (alone P cutOff).Heaps heap heap where
  mirrors := .refl heap
  next _ := ⟨trivial, rfl⟩
  reads _ _ := trivial
  generic _ := hP

theorem alone_heaps_eq (hh : (alone P cutOff).Heaps heap heap') : heap' = heap := by
  obtain ⟨objects⟩ := heap
  obtain ⟨objects'⟩ := heap'
  refine congrArg Heap.mk (Array.ext_getElem? fun h => ?_)
  refine (hh.mirrors.get? (h := h) trivial).trans ?_
  change (objects[h]?).map (Object.rename {}) = objects[h]?
  cases objects[h]? <;> simp

theorem alone_frames (f : Frame) : (alone P cutOff).Frames f f :=
  frames_steady ⟨fun _ _ => trivial, fun _ _ _ => alone_steady _, fun _ => alone_steady _⟩
    fun _ => trivial

theorem alone_chains (chain : Chain) : (alone P cutOff).Chains chain chain := by
  induction chain with
  | nil => exact chains_nil
  | cons f chain ih => exact (alone_frames f).chains ih

theorem alone_worlds_eq {chain : Chain} (hw : (alone P cutOff).Worlds C chain chain w w') :
    w' = w := by
  obtain ⟨⟨frame, outer⟩, heap⟩ := w
  obtain ⟨⟨frame', outer'⟩, heap'⟩ := w'
  obtain ⟨-, hframe, houter, houter', hheap⟩ := hw
  cases alone_heaps_eq hheap
  cases houter.trans houter'.symm
  cases hframe.trans (alone_frames frame).eq.symm
  rfl

theorem alone_type {t : TypeValue} (hP : ∀ g ∈ t.generics, P g) :
    (alone P cutOff).PairType t t where
  shows x _ := (alone_steady x).shows
  generic := hP
  eq := t.rename_id.symm

theorem alone_args (args : Option (List Item)) : (alone P cutOff).PairArgs args args := by
  refine ⟨fun _ _ x _ => (alone_steady x).shows, ?_⟩
  change args = args.map (List.map (Item.rename {}))
  rw [Item.rename_id, List.map_id_fun, Option.map_id_fun]
  rfl

/-- Unless the first of two runs is cut off they are the same. -/
theorem Alike.alone {c c' : Eval Item} (h : (alone P cutOff).Alike (alone P cutOff).Pair c c')
    (hh : (Lockstep.alone P cutOff).Heaps heap heap) :
    cutOff ∧ (c heap).1 = .failed .tooDeep ∨ (c heap).1 ≠ .failed .tooDeep ∧ c' heap = c heap := by
  refine (h hh).imp_right fun hcase => ?_
  match hc : c heap, hc' : c' heap with
  | (o, heap₁), (o', heap₁') =>
    rw [hc, hc'] at hcase
    obtain ⟨hheaps, hends⟩ := hcase
    cases alone_heaps_eq hheaps
    cases hends with
    | resolved hxy =>
      refine ⟨by simp, ?_⟩
      rw [hxy.2, (alone_steady _).rename_eq]
    | pending => exact ⟨by simp, rfl⟩
    | @failed e e' he =>
      refine ⟨fun h => he.1 (Outcome.failed.inj h), ?_⟩
      rw [he.2]
      exact congrArg (fun e => (Outcome.failed e, _)) e.rename_id

theorem Moves.alone {m m' : Job World α} (h : (alone P cutOff).Moves C m m')
    (hw : (Lockstep.alone P cutOff).Worlds C w.context.outer w.context.outer w w) :
    cutOff ∧ (m w).1 = .error .tooDeep ∨ (m w).1 ≠ .error .tooDeep ∧ m' w = m w := by
  obtain ⟨hcut, u, hm⟩ | ⟨a, u, u', hm, hm', hu⟩ | ⟨e, e', u, u', hm, hm', hu, he⟩ :=
    h (alone_chains _) hw
  · exact Or.inl ⟨hcut, by rw [hm]⟩
  · cases alone_worlds_eq hu
    rw [hm, hm']
    exact Or.inr ⟨by simp, rfl⟩
  · cases alone_worlds_eq hu
    rw [hm, hm', he.2]
    refine Or.inr ⟨fun h => he.1 (Except.error.inj h), ?_⟩
    exact congrArg (fun e => (Except.error e, _)) e.rename_id

theorem alone_admits {parts : List Expr} (hP : ∀ g, .type (.generic g) ∈ parts → P g)
    (hC : ∀ e es, .qualify e es ∈ parts → (∀ g, P g → C g) ∨ e.Written C) :
    Admits ((alone P cutOff).Allows C) parts := by
  intro p hp
  cases p with
  | lit x => exact alone_steady x
  | function name params body fs => exact fun x _ => alone_steady x
  | type t =>
    cases t with
    | generic g => exact hP g hp
    | _ => trivial
  | qualify e es => exact hC e es hp
  | _ => trivial

/-- More depth changes nothing for what is not cut off. -/
theorem alone_qualifies_deeper {n m : Nat} (h : n ≤ m) :
    (alone (fun _ => True) True).Qualifies (fun _ => True) (qualifyWithin n) (qualifyWithin m) := by
  induction n generalizing m with
  | zero => exact fun _ _ _ _ _ _ _ _ _ _ => alike_tooDeep trivial
  | succ n ih =>
    cases m with
    | zero => exact absurd h (by omega)
    | succ m =>
      refine (ih (Nat.le_of_succ_le_succ h)).qualifyWith fun g _ => ?_
      exact alone_admits (fun _ _ => trivial) fun _ _ _ => Or.inl fun _ _ => trivial

/-- First-order generics are cut off only where they are larger than the depth. -/
theorem alone_qualifies_firstOrder {n k : Nat} (h : k ≤ n) :
    (alone (fun g => g.FirstOrder ∧ g.size < n) False).Qualifies
      (fun g => g.FirstOrder ∧ g.size < k) (qualifyWithin (k + 1)) (qualifyWithin (k + 1)) := by
  induction k with
  | zero =>
    intro chain chain' t u args args' _ ht hC _
    unfold qualifyWithin qualifyWith
    rw [ht.generic?_eq]
    cases hg : t.generic? with
    | none => exact alike_fail (congrArg Fault.notGeneric ht.eq) (by simp)
    | some g =>
      have hlt := (hC g (TypeValue.mem_generics_of_generic? hg)).2
      exact absurd hlt (Nat.not_lt_zero _)
  | succ k ih =>
    refine (ih (Nat.le_of_succ_le h)).qualifyWith fun g hg => ?_
    -- What a generic writes out is smaller than it is, so one depth less is enough for that.
    have hinside : ∀ p ∈ GenericOf.parts false g, ∀ g' ∈ p.generics,
        g'.FirstOrder ∧ g'.size < k := by
      intro p hp g' hg'
      have hsub := Expr.generic_sublist (Expr.mem_generics.mp hg')
      obtain ⟨hfirst, hlt⟩ := hg.1.inside (hsub.trans (GenericOf.parts_sublist hp))
      exact ⟨hfirst, by omega⟩
    refine alone_admits (fun g' hg' => ?_) fun e es he => Or.inr ?_
    · obtain ⟨hfirst, hlt⟩ := hinside _ hg' g' (Expr.mem_generics.mpr (Expr.mem_parts_self _))
      exact ⟨hfirst, by omega⟩
    · have hwritten := hg.1 e es ((GenericOf.parts_sublist he).subset (Expr.mem_parts_self _))
      refine hwritten.imp fun g' hg' => hinside _ he g' (Expr.mem_generics.mpr ?_)
      rw [Expr.parts]
      exact List.mem_cons_of_mem _ (List.mem_append_right _ (Expr.mem_generics.mp hg'))

theorem alone_admits_expr {e : Expr} (hP : ∀ g ∈ e.generics, P g) :
    Admits ((alone P cutOff).Allows P) (e.parts false) :=
  alone_admits (fun g hg => hP g (Expr.mem_generics.mpr hg)) fun _ _ _ => Or.inl fun _ hg => hg

theorem alone_worlds (hP : ∀ g ∈ w.generics, P g) :
    (alone P cutOff).Worlds P w.context.outer w.context.outer w w := by
  have hframe : (alone P cutOff).Frames w.context.frame w.context.frame := alone_frames _
  refine ⟨⟨⟨fun {k s} hk hs => alone_admits_expr fun g hg => hP g ?_, hframe.shows.item,
    hframe.shows.var⟩, hframe.bound⟩, hframe.eq, rfl, rfl, alone_heaps fun {h o} ho g hg => hP g ?_⟩
  · refine List.mem_append_right _ (List.mem_flatMap.mpr ⟨k, hk, List.mem_flatMap.mpr ?_⟩)
    exact ⟨s, Array.mem_toList_iff.mpr hs, hg⟩
  · refine List.mem_append_left _ (List.mem_flatMap.mpr ⟨o, ?_, hg⟩)
    exact Array.mem_toList_iff.mpr (Array.mem_of_getElem? ho)

/-- An evaluation that goes in lockstep wherever specializing does. -/
theorem finishesUnlessNested_eval {gs : List Generic} {c : Qualifier → Eval Item}
    (hw : ∀ g ∈ w.generics, g ∈ gs)
    (hc : ∀ {P : Generic → Prop} {cutOff q q'}, (∀ g ∈ gs, P g) →
      (alone P cutOff).Qualifies P q q' →
        (alone P cutOff).Alike (alone P cutOff).Pair (c q) (c q')) :
    FinishesUnlessNested gs (.failed .tooDeep) fun depth => c (qualifyWithin depth) w.heap := by
  refine finishesUnlessNested_of_deeper (fun n m hnm => ?_) fun n hgs => ?_
  · have h := hc (fun _ _ => trivial) (alone_qualifies_deeper hnm)
    exact (h.alone (alone_worlds fun _ _ => trivial).heap).imp And.right And.right
  · have h := hc hgs (alone_qualifies_firstOrder (Nat.le_refl n))
    have hcase := h.alone (alone_worlds fun g hg => hgs g (hw g hg)).heap
    exact (hcase.resolve_left fun h => h.1).1

theorem finishesUnlessNested_job {m : Qualifier → Job World α}
    (hm : ∀ {P : Generic → Prop} {cutOff q q'}, (alone P cutOff).Qualifies P q q' →
      (alone P cutOff).Moves P (m q) (m q')) :
    FinishesUnlessNested w.generics (.error .tooDeep) fun depth => m (qualifyWithin depth) w := by
  refine finishesUnlessNested_of_deeper (fun n k hnk => ?_) fun n hgs => ?_
  · have h := hm (alone_qualifies_deeper hnk)
    exact (h.alone (alone_worlds fun _ _ => trivial)).imp And.right And.right
  · have h := hm (alone_qualifies_firstOrder (Nat.le_refl n))
    have hcase := h.alone (alone_worlds hgs)
    exact (hcase.resolve_left fun h => h.1).1

end Lockstep

/-- In any world, evaluating an expression, specializing a type, a sweep, and sweeping until nothing
more or everything is resolved come to an end. If one of them does not, then specializations nest in
it without end, and one of the generics at hand specializes a type that it does not write out. -/
theorem World.finishes_unless_nested (w : World) :
    (∀ e : Expr, FinishesUnlessNested (w.generics ++ e.generics) (.failed .tooDeep)
      fun depth => e.evalWith (qualifyWithin depth) w.chain w.heap) ∧
    (∀ (t : TypeValue) (args : Option (List Item)),
      FinishesUnlessNested (w.generics ++ t.generics) (.failed .tooDeep)
        fun depth => qualifyWithin depth w.chain t args w.heap) ∧
    FinishesUnlessNested w.generics (.error .tooDeep)
      (fun depth => World.sweepWith (qualifyWithin depth) w) ∧
    FinishesUnlessNested w.generics (.error .tooDeep)
      (fun depth => World.stallWith (qualifyWithin depth) w) ∧
    FinishesUnlessNested w.generics (.error .tooDeep)
      fun depth => World.resolveWith (qualifyWithin depth) w := by
  refine ⟨fun e => ?_, fun t args => ?_,
    Lockstep.finishesUnlessNested_job Lockstep.moves_sweepWith,
    Lockstep.finishesUnlessNested_job fun hq => Lockstep.moves_sweepFrom hq 0,
    Lockstep.finishesUnlessNested_job Lockstep.moves_resolveWith⟩
  · refine Lockstep.finishesUnlessNested_eval (c := fun q => e.evalWith q w.chain)
      (fun g hg => List.mem_append_left _ hg) fun hP hq => ?_
    refine Lockstep.alike_evalWith hq (Lockstep.alone_chains _) ?_
    exact Lockstep.alone_admits_expr fun g hg => hP g (List.mem_append_right _ hg)
  · refine Lockstep.finishesUnlessNested_eval (c := fun q => q w.chain t args)
      (fun g hg => List.mem_append_left _ hg) fun {P _ _ _} hP hq => ?_
    have ht : ∀ g ∈ t.generics, P g := fun g hg => hP g (List.mem_append_right _ hg)
    exact hq (Lockstep.alone_chains _) (Lockstep.alone_type ht) ht (Lockstep.alone_args args)

namespace Draft

/-- Lists of lists of what the parameter is if it is specialized with itself. -/
def selfApplied : Generic where
  id := 0
  name := "W"
  params := [0]
  groups := []
  body := ⟨100, "b", [(fun e => .type (.listOf e))^[16] (.qualify (.var 0) (some [.var 0]))]⟩

/-- The generic is specialized with itself. -/
def reflexive : Draft where
  name := "u"
  groups := [⟨0, "g", [.type (.generic selfApplied),
    .qualify (.slot ⟨0, 0⟩) (some [.slot ⟨0, 0⟩])]⟩]
  program := [.exportConst "x" (.comptime ⟨0, 1⟩)]

variable {q : Qualifier} {chain : Chain} {e : Expr} {heap heap' : Heap}

/-- Lists of what fails fail. -/
theorem run_lists {f : Fault} (he : e.run q chain heap = (.failed f, heap')) (n : Nat) :
    ((fun e => .type (.listOf e))^[n] e).run q chain heap = (.failed f, heap') := by
  induction n with
  | zero => exact he
  | succ n ih =>
    rw [Function.iterate_succ_apply', Expr.run, TypeExpr.run]
    simp only [map_eq_pure_bind, Run.bind_apply, ih]

/-- Specializing a type with itself is as specializing it. -/
theorem run_qualify_self {f : Fault} {t : TypeValue} {x : Item}
    (he : e.run q chain heap = (.resolved (.item x), heap)) (ht : heap.type? x = some t)
    (hq : q chain t (some [x]) heap = (.failed f, heap)) :
    (Expr.qualify e (some [e])).run q chain heap = (.failed f, heap) := by
  have hargs : Expr.runArgs q chain (some [e]) heap = (.resolved (some [x]), heap) := by
    simp only [Expr.runArgs, Expr.runAll, map_eq_pure_bind, Run.bind_apply, he]
    rfl
  have hoperand : (Value.item x).asType heap = (.resolved t, heap) := by
    simp only [Value.asType, Run.bind_apply, Run.state, ht]
    rfl
  rw [Expr.run]
  simp only [map_eq_pure_bind, Run.bind_apply, hargs, he, hoperand, hq]

/-- Each specialization needs another one. -/
theorem qualify_selfApplied (ht : heap.type? (.ref 0) = some { kind := .generic selfApplied })
    (depth : Nat) (chain : Chain) :
    qualifyWithin depth chain { kind := .generic selfApplied } (some [.ref 0]) heap =
      (.failed .tooDeep, heap) := by
  induction depth generalizing chain with
  | zero => rfl
  | succ depth ih =>
    let frame : Frame := { vars := [(0, .item (.ref 0))], qualified := [0] }
    have hargs : TypeValue.arguments? { kind := .generic selfApplied } selfApplied (some [.ref 0]) =
        .ok [(selfApplied, [.ref 0])] := rfl
    have hframe : [(selfApplied, [Item.ref 0])].foldlM (fun (f : Frame) b => f.enter b.1 b.2) {} =
        .ok frame := rfl
    have hinside : resolveInside (qualifyWithin depth) chain frame heap =
        (.resolved (frame :: chain), heap) := by
      unfold resolveInside World.stallWith
      rw [World.sweepFrom_of_ok (p := ⟨0, []⟩) rfl]
      rfl
    have hbody : selfApplied.body.evalWith (qualifyWithin depth) (frame :: chain) heap =
        (.failed .tooDeep, heap) := by
      have hself : (Expr.qualify (.var 0) (some [.var 0])).run (qualifyWithin depth)
          (frame :: chain) heap = (.failed .tooDeep, heap) := run_qualify_self rfl ht (ih _)
      unfold GroupOf.evalWith selfApplied
      simp only [Expr.runAll, Run.bind_apply, run_lists hself]
    unfold qualifyWithin qualifyWith
    change (Run.lift (.ofExcept _) >>= _) heap = _
    simp only [hargs, Run.bind_apply, Run.lift, Outcome.ofExcept, hframe, hinside, hbody]

theorem resolveWith_reflexive (depth : Nat) :
    (World.resolveWith (qualifyWithin depth) reflexive.start).1 = .error .tooDeep := by
  have hsweep : (World.sweepWith (qualifyWithin depth) reflexive.start).1 = .error .tooDeep := by
    let stored : World := reflexive.start.freeze ⟨0, 0⟩ (.ref 0)
      ⟨#[.type { kind := .generic selfApplied }]⟩
    have hfirst : World.trySlot (qualifyWithin depth) ⟨0, 0⟩ (.type (.generic selfApplied))
        reflexive.start = (.ok (true, false), stored) := rfl
    have htype : stored.heap.type? (.ref 0) = some { kind := .generic selfApplied } := rfl
    have hself : (Expr.qualify (.slot ⟨0, 0⟩) (some [.slot ⟨0, 0⟩])).run (qualifyWithin depth)
        stored.chain stored.heap = (.failed .tooDeep, stored.heap) :=
      run_qualify_self rfl htype (qualify_selfApplied htype depth stored.chain)
    have hsecond : World.trySlot (qualifyWithin depth) ⟨0, 1⟩
        (.qualify (.slot ⟨0, 0⟩) (some [.slot ⟨0, 0⟩])) stored = (.error .tooDeep, stored) := by
      have hopen : stored.context.frame.isOpen ⟨0, 1⟩ := rfl
      unfold World.trySlot
      rw [if_pos hopen, Expr.evalWith, Run.bind_apply, hself]
    change ((World.sweepSlots _ 0 [(⟨.type (.generic selfApplied), none⟩, 0),
      (⟨.qualify (.slot ⟨0, 0⟩) (some [.slot ⟨0, 0⟩]), none⟩, 1)] >>= _) reflexive.start).1 = _
    simp only [World.sweepSlots, Job.bind_apply, hfirst, hsecond]
  have hstall : World.stallWith (qualifyWithin depth) reflexive.start =
      (.error .tooDeep, (World.sweepWith (qualifyWithin depth) reflexive.start).2) :=
    World.sweepFrom_of_error (Prod.ext hsweep rfl)
  unfold World.resolveWith
  rw [Job.bind_apply, hstall]

theorem not_finishes_reflexive :
    ¬Finishes (.error .tooDeep) fun depth =>
      World.resolveWith (qualifyWithin depth) reflexive.start := by
  rintro ⟨n, r, hr, -, hn⟩
  refine hr ?_
  rw [← hn n (Nat.le_refl n)]
  exact resolveWith_reflexive n

end Draft

end Comptime
