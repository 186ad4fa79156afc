import Comptime.Proofs.Renaming.Emission
import Comptime.Proofs.Settlement

/-! Once the slots of a unit are frozen, the rest of its compilation looks at the settled heap only,
and not at the names of its handles. -/
namespace Comptime

variable {r : Renaming} {D : Handle → Prop} {heap heap' : Heap} {chain chain' : Chain}
  {start : List Handle} {h k : Handle} {roots roots' items : List Item}

/-- The second list has the renamed handles of the first, in any order. -/
structure RootsMirror (r : Renaming) (D : Handle → Prop) (roots roots' : List Item) : Prop where
  within : ∀ h ∈ refsOf roots, D h
  mem_iff : ∀ k, k ∈ refsOf roots' ↔ ∃ h ∈ refsOf roots, r.handle h = k

namespace RootsMirror

/-- Lists of the same items, up to renaming and order. -/
theorem of_items (hi : ∀ x ∈ roots, x.Within D)
    (hm : ∀ y, y ∈ roots' ↔ ∃ x ∈ roots, x.rename r = y) : RootsMirror r D roots roots' := by
  refine ⟨fun h hh => hi _ (mem_refsOf.mp hh) h rfl, fun k => ?_⟩
  simp only [mem_refsOf, hm]
  constructor
  · rintro ⟨x, hx, hk⟩
    cases x <;> cases hk
    exact ⟨_, hx, rfl⟩
  · rintro ⟨h, hh, rfl⟩
    exact ⟨_, hh, rfl⟩

theorem map (hi : ∀ x ∈ items, x.Within D) :
    RootsMirror r D items (items.map (Item.rename r)) :=
  of_items hi fun _ => List.mem_map

theorem append {more more' : List Item} (hr : RootsMirror r D roots roots')
    (hm : RootsMirror r D more more') : RootsMirror r D (roots ++ more) (roots' ++ more') := by
  have happend : ∀ xs ys : List Item, refsOf (xs ++ ys) = refsOf xs ++ refsOf ys :=
    fun _ _ => List.filterMap_append
  refine ⟨?_, fun k => ?_⟩
  · rw [happend]
    exact List.forall_mem_append.mpr ⟨hr.within, hm.within⟩
  · simp only [happend, List.mem_append, hr.mem_iff, hm.mem_iff, or_and_right, exists_or]

end RootsMirror

namespace Heap.Mirrors

variable (hm : heap.Mirrors r D heap') (hr : RootsMirror r D roots roots')
include hm hr

theorem reach (hh : heap.Reach (refsOf roots) h) :
    D h ∧ heap'.Reach (refsOf roots') (r.handle h) := by
  induction hh with
  | start hs => exact ⟨hr.within _ hs, .start ((hr.mem_iff _).mpr ⟨_, hs, rfl⟩)⟩
  | step _ hk ih =>
    obtain ⟨hd, hreach⟩ := ih
    refine ⟨hm.closed hd hk, .step hreach ?_⟩
    rw [hm.refs hd]
    exact List.mem_map_of_mem hk

theorem exists_reach (hk : heap'.Reach (refsOf roots') k) :
    ∃ h, heap.Reach (refsOf roots) h ∧ r.handle h = k := by
  induction hk with
  | start hs =>
    obtain ⟨h, hh, rfl⟩ := (hr.mem_iff _).mp hs
    exact ⟨h, .start hh, rfl⟩
  | step _ hk ih =>
    obtain ⟨h, hh, rfl⟩ := ih
    rw [hm.refs (hm.reach hr hh).1] at hk
    obtain ⟨g, hg, rfl⟩ := List.mem_map.mp hk
    exact ⟨g, .step hh hg, rfl⟩

theorem checkKnown (hroots : roots' = roots.map (Item.rename r)) :
    Comptime.checkKnown heap' roots' = .ok () ↔ Comptime.checkKnown heap roots = .ok () := by
  rw [checkKnown_eq_ok_iff, checkKnown_eq_ok_iff]
  refine and_congr ?_ ⟨fun hall h hh x hx => ?_, fun hall k hk y hy => ?_⟩
  · simp only [hroots, List.forall_mem_map, Item.isUnknown_rename]
  · obtain ⟨hd, hreach⟩ := hm.reach hr hh
    rw [← Item.isUnknown_rename x]
    exact hall _ hreach _ (hm.items hd ▸ List.mem_map_of_mem hx)
  · obtain ⟨h, hh, rfl⟩ := hm.exists_reach hr hk
    rw [hm.items (hm.reach hr hh).1] at hy
    obtain ⟨x, hx, rfl⟩ := List.mem_map.mp hy
    rw [Item.isUnknown_rename x]
    exact hall h hh x hx

end Heap.Mirrors

namespace Chain

/-- The same objects of the heaps settle along their chains, and settled they are the same. -/
structure Settling (r : Renaming) (D : Handle → Prop) (chain chain' : Chain)
    (heap heap' : Heap) : Prop where
  inj : ∀ {h k}, D h → D k → r.handle h = r.handle k → h = k
  closed : ∀ {h k}, D h → k ∈ (settledHeap chain heap).refs h → D k
  settles : ∀ {h}, D h → ((∀ y ∈ heap'.items (r.handle h), unsettled? chain' y = none) ↔
    ∀ x ∈ heap.items h, unsettled? chain x = none)
  get? : ∀ {h}, D h → (∀ x ∈ heap.items h, unsettled? chain x = none) →
    (settledHeap chain' heap').get? (r.handle h) =
      ((settledHeap chain heap).get? h).map (Object.rename r)

/-- Heaps that are the same once they are settled. -/
theorem Settling.of_mirrors
    (hm : (settledHeap chain heap).Mirrors r D (settledHeap chain' heap'))
    (hs : ∀ {h}, D h → ((∀ y ∈ heap'.items (r.handle h), unsettled? chain' y = none) ↔
      ∀ x ∈ heap.items h, unsettled? chain x = none)) : Settling r D chain chain' heap heap' :=
  ⟨hm.inj, hm.closed, hs, fun hd _ => hm.get? hd⟩

variable (hs : Settling r D chain chain' heap heap') (hr : RootsMirror r D roots roots')
include hs hr

theorem Settling.dom (hh : (settledHeap chain heap).Reach (refsOf roots) h) : D h :=
  hh.mem_of_closed hr.within fun _ hd _ hk => hs.closed hd hk

/-- Where all settles in the first heap, what can be reached is the same. -/
theorem Settling.mirrors
    (hall : ∀ h, (settledHeap chain heap).Reach (refsOf roots) h →
      ∀ x ∈ heap.items h, unsettled? chain x = none) :
    (settledHeap chain heap).Mirrors r ((settledHeap chain heap).Reach (refsOf roots))
        (settledHeap chain' heap') ∧
      RootsMirror r ((settledHeap chain heap).Reach (refsOf roots)) roots roots' := by
  refine ⟨⟨fun hh hk => hs.inj (hs.dom hr hh) (hs.dom hr hk), .step, fun hh => ?_⟩,
    fun _ => .start, hr.mem_iff⟩
  exact hs.get? (hs.dom hr hh) (hall _ hh)

/-- Where all settles in the second heap, what the first reaches is reached in it. -/
theorem Settling.reach
    (hall : ∀ k, (settledHeap chain' heap').Reach (refsOf roots') k →
      ∀ y ∈ heap'.items k, unsettled? chain' y = none)
    (hh : (settledHeap chain heap).Reach (refsOf roots) h) :
    D h ∧ (settledHeap chain' heap').Reach (refsOf roots') (r.handle h) := by
  induction hh with
  | start hm => exact ⟨hr.within _ hm, .start ((hr.mem_iff _).mpr ⟨_, hm, rfl⟩)⟩
  | @step h k _ hk ih =>
    obtain ⟨hd, hreach⟩ := ih
    have hget := hs.get? hd ((hs.settles hd).mp (hall _ hreach))
    refine ⟨hs.closed hd hk, .step hreach ?_⟩
    cases ho : (settledHeap chain heap).get? h with
    | none => simp [Heap.refs, Heap.items, Heap.children, ho, refsOf] at hk
    | some o =>
      rw [ho, Option.map_some] at hget
      rw [Heap.refs, Heap.items_of_get? ho] at hk
      rw [Heap.refs, Heap.items_of_get? hget, Object.children_rename, List.map_map, mem_refsOf]
      obtain ⟨c, hc, hck⟩ := List.mem_map.mp (mem_refsOf.mp hk)
      exact List.mem_map.mpr ⟨c, hc, by simp [Child.rename, hck, Item.rename]⟩

theorem Settling.agrees_install :
    Agrees True (fun _ _ => True) (install chain roots heap).1
      (install chain' roots' heap').1 := by
  rcases install_cases chain roots heap with
      ⟨n, heap₁, hi, hall⟩ | ⟨e, heap₁, hi, h, hh, x, hx, hn⟩ <;>
    rcases install_cases chain' roots' heap' with
      ⟨n', heap₁', hi', hall'⟩ | ⟨e', heap₁', hi', k, hk, y, hy, hn'⟩ <;>
    rw [hi, hi']
  · trivial
  · obtain ⟨hm, hr'⟩ := hs.mirrors hr fun h hh => (hall h hh).2
    obtain ⟨h, hh, rfl⟩ := hm.exists_reach hr' hk
    exact hn' ((hs.settles (hs.dom hr hh)).mpr (hall h hh).2 y hy)
  · obtain ⟨hd, hreach⟩ := hs.reach hr (fun k hk => (hall' k hk).2) hh
    exact fun _ => hn ((hs.settles hd).mp (hall' _ hreach).2 x hx)
  · trivial

variable {n n' : Nat} {heap₁ heap₁' : Heap} (hi : install chain roots heap = (.ok n, heap₁))
  (hi' : install chain' roots' heap' = (.ok n', heap₁')) {program : Program}
  (hp : ∀ x ∈ Stmt.itemsAll program, x ∈ roots)
include hi hi' hp

/-- What a program reaches in the installed heaps is the same, up to the names of the handles. -/
theorem Settling.mirrors_installed (hg : ∀ g, (r.generic g).name = g.name) (name name' : String) :
    Resolved.Mirrors r ⟨name, heap₁, program⟩ ⟨name', heap₁', Stmt.renameAll r program⟩ := by
  have hinstalled : ∀ h, (settledHeap chain heap).Reach (refsOf roots) h →
      heap₁.get? h = (settledHeap chain heap).get? h ∧
        ∀ x ∈ heap.items h, unsettled? chain x = none := by
    rcases install_cases chain roots heap with ⟨_, _, he, hall⟩ | ⟨_, _, he, -⟩
    · cases hi.symm.trans he
      exact hall
    · cases hi.symm.trans he
  have hget := fun h hh => (hinstalled h hh).1
  obtain ⟨hm, hr'⟩ := hs.mirrors hr fun h hh => (hinstalled h hh).2
  have hget' : ∀ k, (settledHeap chain' heap').Reach (refsOf roots') k →
      heap₁'.get? k = (settledHeap chain' heap').get? k := by
    rcases install_cases chain' roots' heap' with ⟨_, _, he, hall⟩ | ⟨_, _, he, -⟩
    · cases hi'.symm.trans he
      exact fun k hk => (hall k hk).1
    · cases hi'.symm.trans he
  have hsub : ∀ k ∈ refsOf (Stmt.itemsAll program), k ∈ refsOf roots := by
    intro k hk
    obtain ⟨x, hx, hxk⟩ := List.mem_filterMap.mp hk
    exact List.mem_filterMap.mpr ⟨x, hp x hx, hxk⟩
  have hreach : ∀ {h}, heap₁.Reach (refsOf (Stmt.itemsAll program)) h →
      (settledHeap chain heap).Reach (refsOf roots) h := by
    intro h hh
    rw [Heap.reach_congr fun h hh => hget h (hh.mono hsub)] at hh
    exact hh.mono hsub
  refine ⟨rfl, fun hh hk he => ?_, fun hh => ?_, hg⟩
  · exact hm.inj (hreach hh) (hreach hk) he
  · obtain ⟨hd, hh'⟩ := hm.reach hr' (hreach hh)
    change heap₁'.get? _ = (heap₁.get? _).map _
    rw [hget' _ hh', hm.get? hd, hget _ (hreach hh)]

end Chain

/-- Units that mirror each other are known alike. -/
theorem Resolved.Mirrors.checkKnown {unit unit' : Resolved} (hm : unit.Mirrors r unit') :
    Comptime.checkKnown unit'.heap (Stmt.itemsAll unit'.program) = .ok () ↔
      Comptime.checkKnown unit.heap (Stmt.itemsAll unit.program) = .ok () := by
  have hheap : unit.heap.Mirrors r unit.Reach unit'.heap := ⟨hm.inj, .step, hm.get?⟩
  have hitems : ∀ x ∈ Stmt.itemsAll unit.program, x.Within unit.Reach :=
    fun x hx => within_of_refsOf (fun h hh => .start hh) hx
  have hprogram : Stmt.itemsAll unit'.program =
      (Stmt.itemsAll unit.program).map (Item.rename r) := by
    rw [hm.program, Stmt.itemsAll_rename]
  refine hheap.checkKnown ?_ hprogram
  rw [hprogram]
  exact .map hitems

section Units

variable {d d' : Draft} {w w' : World}

/-- The program of a unit, lowered and settled. -/
def Draft.settledProgram (d : Draft) (chain : Chain) : Except Fault Program :=
  match lowerProgram chain d.program with
  | (_, some e) => .error e
  | (p, none) => settleProgram chain p

/-- The slots of two units were frozen alike, and their programs mean the same. -/
structure Draft.Alike (r : Renaming) (D : Handle → Prop) (d d' : Draft) (w w' : World) : Prop where
  settling : Chain.Settling r D w.chain w'.chain w.heap w'.heap
  roots : RootsMirror r D w.context.frame.items w'.context.frame.items
  program : Agrees True (fun p p' => (∀ x ∈ Stmt.itemsAll p, x.Within D) ∧ p' = Stmt.renameAll r p)
    (d.settledProgram w.chain) (d'.settledProgram w'.chain)
  generic : ∀ g, (r.generic g).name = g.name

/-- How resolving the slots of two units may end. -/
def Draft.EndAlike (d d' : Draft) : Except Fault Nat × World → Except Fault Nat × World → Prop
  | (.ok _, w), (.ok _, w') => ∃ r D, Draft.Alike r D d d' w w'
  | (.error _, _), (.error _, _) => True
  | _, _ => False

/-- The unit that a settled program makes with the heap it is installed in. -/
def Draft.installed (d : Draft) (w : World) (program : Program) : Except Fault (Nat × Resolved) :=
  match w.chain.install (w.context.frame.items ++ Stmt.itemsAll program) w.heap with
  | (.ok n, heap) => do
    checkKnown heap (Stmt.itemsAll program)
    return (n, ⟨d.name, heap, program⟩)
  | (.error e, _) => .error e

/-- Once the slots are frozen, the program is settled, and what it needs is installed. -/
theorem Draft.resolve_of_ok {n : Nat}
    (hw : World.resolve ⟨{ frame := d.frame }, d.heap⟩ = (.ok n, w)) :
    ∃ notes : Nat → List Diagnostic, d.resolve =
      d.settledProgram w.chain >>= fun p => d.installed w p >>= fun u => .ok (u.2, notes u.1) := by
  refine ⟨fun k => [⟨.info, d.name ++ ": resolved in " ++ toString n ++ " sweeps, " ++ toString k ++
    " placeholders installed", none⟩], ?_⟩
  unfold Draft.resolve Draft.settledProgram
  rw [hw]
  dsimp only [Bind.bind, Except.bind]
  match lowerProgram w.chain d.program with
  | (_, some e) => rfl
  | (p, none) =>
    dsimp only [Pure.pure, Except.pure]
    cases settleProgram w.chain p with
    | error e => rfl
    | ok program =>
      dsimp only
      unfold Draft.installed
      match w.chain.install (w.context.frame.items ++ Stmt.itemsAll program) w.heap with
      | (.error e, heap) => rfl
      | (.ok k, heap) =>
        dsimp only [Bind.bind, Except.bind]
        cases checkKnown heap (Stmt.itemsAll program) <;> rfl

theorem Draft.resolve_of_error {e : Fault}
    (hw : World.resolve ⟨{ frame := d.frame }, d.heap⟩ = (.error e, w)) :
    d.resolve = .error e := by
  unfold Draft.resolve
  rw [hw]
  rfl

theorem Draft.Alike.agrees_installed (ha : Draft.Alike r D d d' w w') {program : Program}
    (hp : ∀ x ∈ Stmt.itemsAll program, x.Within D) :
    Agrees True (fun u u' => u.2.Mirrors r u'.2) (d.installed w program)
      (d'.installed w' (Stmt.renameAll r program)) := by
  have hroots := ha.roots.append (RootsMirror.map (r := r) hp)
  rw [← Stmt.itemsAll_rename] at hroots
  have hagree := ha.settling.agrees_install hroots
  unfold Draft.installed
  match hi : w.chain.install (w.context.frame.items ++ Stmt.itemsAll program) w.heap,
    hi' : w'.chain.install (w'.context.frame.items ++ Stmt.itemsAll (Stmt.renameAll r program))
      w'.heap with
  | (.error e, heap), (.error e', heap') => trivial
  | (.error e, heap), (.ok n', heap') =>
    rw [hi, hi'] at hagree
    exact absurd trivial hagree
  | (.ok n, heap), (.error e', heap') =>
    rw [hi, hi'] at hagree
    exact hagree.elim
  | (.ok n, heap), (.ok n', heap') =>
    have hm := ha.settling.mirrors_installed hroots hi hi'
      (fun x hx => List.mem_append_right _ hx) ha.generic d.name d'.name
    have hknown : Agrees True (fun _ _ => True) (checkKnown heap (Stmt.itemsAll program))
        (checkKnown heap' (Stmt.itemsAll (Stmt.renameAll r program))) := by
      have hiff := hm.checkKnown
      dsimp only at hiff
      cases h : checkKnown heap (Stmt.itemsAll program) with
      | ok u =>
        rw [hiff.mpr h]
        trivial
      | error e =>
        cases h' : checkKnown heap' (Stmt.itemsAll (Stmt.renameAll r program)) with
        | ok u =>
          cases h.symm.trans (hiff.mp h')
        | error e' => trivial
    exact hknown.bind fun _ _ _ => .pure hm

theorem Draft.agrees_resolve
    (h : d.EndAlike d' (World.resolve ⟨{ frame := d.frame }, d.heap⟩)
      (World.resolve ⟨{ frame := d'.frame }, d'.heap⟩)) :
    Agrees True (fun p p' => ∃ r, p.1.Mirrors r p'.1) d.resolve d'.resolve := by
  match hw : World.resolve ⟨{ frame := d.frame }, d.heap⟩,
    hw' : World.resolve ⟨{ frame := d'.frame }, d'.heap⟩ with
  | (.error e, w), (.error e', w') =>
    rw [Draft.resolve_of_error hw, Draft.resolve_of_error hw']
    trivial
  | (.error e, w), (.ok n, w') | (.ok n, w), (.error e, w') =>
    rw [hw, hw'] at h
    exact h.elim
  | (.ok n, w), (.ok n', w') =>
    rw [hw, hw'] at h
    obtain ⟨r, D, ha⟩ := h
    obtain ⟨notes, he⟩ := Draft.resolve_of_ok hw
    obtain ⟨notes', he'⟩ := Draft.resolve_of_ok hw'
    rw [he, he']
    refine ha.program.bind fun p p' hp => ?_
    rw [hp.2]
    exact (ha.agrees_installed hp.1).bind fun u u' hu => .pure ⟨r, hu⟩

/-- A unit compiles if it resolves and the resolved unit is emitted. -/
theorem compile_eq_ok_iff {options : Options} {m : Modules} :
    compile d options = .ok m ↔ ∃ unit notes, d.resolve = .ok (unit, notes) ∧
      emit unit.program unit.heap unit.track.1.tracker options.naming = .ok m := by
  simp only [compile, Pipeline.andThen, Pipeline.start, resolveStage, trackStage, emitStage,
    Stage.ofFallible, Tracked.emit, Resolved.track]
  cases d.resolve with
  | error e => simp
  | ok u =>
    obtain ⟨unit, notes⟩ := u
    simp only [Except.ok.injEq, Prod.mk.injEq, exists_and_right, ↓existsAndEq, true_and]
    cases emit unit.program unit.heap _ options.naming with
    | ok n => simp [Bind.bind, Except.bind, Pure.pure, Except.pure]
    | error e => simp [Bind.bind, Except.bind]

/-- A unit compiles if all of its stages succeed. -/
theorem compile_of_stages {n k : Nat} {p : Program} {u : Resolved} {options : Options}
    {m : Modules} (hw : World.resolve ⟨{ frame := d.frame }, d.heap⟩ = (.ok n, w))
    (hp : d.settledProgram w.chain = .ok p) (hu : d.installed w p = .ok (k, u))
    (hm : emit u.program u.heap u.track.1.tracker options.naming = .ok m) :
    compile d options = .ok m := by
  obtain ⟨notes, he⟩ := Draft.resolve_of_ok hw
  rw [hp] at he
  change d.resolve = d.installed w p >>= _ at he
  rw [hu] at he
  exact compile_eq_ok_iff.mpr ⟨u, notes k, he, hm⟩

/-- Units whose slots are frozen alike compile to the same modules. -/
theorem compile_eq_ok_iff_of_endAlike
    (h : d.EndAlike d' (World.resolve ⟨{ frame := d.frame }, d.heap⟩)
      (World.resolve ⟨{ frame := d'.frame }, d'.heap⟩)) (options : Options) (m : Modules) :
    compile d options = .ok m ↔ compile d' options = .ok m := by
  have hagree := Draft.agrees_resolve h
  rw [compile_eq_ok_iff, compile_eq_ok_iff]
  cases hd : d.resolve with
  | error e =>
    cases hd' : d'.resolve with
    | error e' => simp
    | ok u' =>
      rw [hd, hd'] at hagree
      exact absurd trivial hagree
  | ok u =>
    obtain ⟨u', hd', r, hm⟩ := hagree.exists_ok hd
    obtain ⟨unit, notes⟩ := u
    obtain ⟨unit', notes'⟩ := u'
    simp only [hd', Except.ok.injEq, Prod.mk.injEq, exists_and_right, ↓existsAndEq, true_and]
    exact hm.agrees_emit.ok_iff m

end Units

end Comptime
