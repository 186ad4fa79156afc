import Comptime.Proofs.Duplication
import Comptime.Proofs.Evaluation.Bodies

/-! Resolution and the slots in code. The program is lowered, but functions are not: they refer to
the slots that are written in their bodies, and emission is the first to notice. -/
namespace Comptime

/-- The slots that a function refers to; `none` for other objects. -/
def Object.slots? : Object → Option (List SlotAddr)
  | .function f => some (Stmt.slotsAll f.body)
  | _ => none

def Heap.slots? (heap : Heap) (h : Handle) : Option (List SlotAddr) :=
  (heap.get? h).bind Object.slots?

variable {d : Draft} {w : World} {heap : Heap} {chain : Chain} {h k : Handle} {x : Item}

section Installation

variable {f : Item → Option Item} {o o' : Object}

theorem Object.slots?_setChild? {place : Place} (h : o.setChild? x place = some o') :
    o'.slots? = o.slots? := by
  cases o with
  | function f =>
    cases place with
    | capture name =>
      obtain ⟨_, _, he⟩ := Option.bind_eq_some_iff.mp h
      cases he
      rfl
    | bodyItem i =>
      simp only [Object.setChild?] at h
      split at h
      · cases h
        exact congrArg some (Stmt.slotsAll_setItemAll x f.body i)
      · cases h
    | _ => cases h
  | type t =>
    obtain ⟨_, _, rfl⟩ := Option.map_eq_some_iff.mp h
    rfl
  | feature name key fields =>
    cases place with
    | featureAnchor =>
      cases h
      rfl
    | featureField f =>
      obtain ⟨_, _, rfl⟩ := Option.map_eq_some_iff.mp h
      rfl
    | _ => cases h
  | seq items =>
    cases place with
    | index i =>
      obtain ⟨_, _, rfl⟩ := Option.map_eq_some_iff.mp h
      rfl
    | _ => cases h
  | record features fields =>
    cases place with
    | feature i | field name =>
      obtain ⟨_, _, rfl⟩ := Option.map_eq_some_iff.mp h
      rfl
    | _ => cases h
  | anchor name => cases place <;> cases h

theorem Object.slots?_replaceChildren (f : Item → Option Item) (o : Object) :
    (o.replaceChildren f).1.slots? = o.slots? := by
  have hfold : ∀ (cs : List Child) (acc : Object × Nat),
      (cs.foldl (Object.replaceChild f) acc).1.slots? = acc.1.slots? := by
    intro cs
    induction cs with
    | nil => exact fun _ => rfl
    | cons c cs ih =>
      intro acc
      rw [List.foldl_cons, ih, Object.replaceChild]
      cases f c.2 with
      | none => rfl
      | some x =>
        dsimp only
        cases hs : acc.1.setChild? x c.1 with
        | none => rfl
        | some p => exact Object.slots?_setChild? hs
  exact hfold o.children (o, 0)

theorem Heap.slots?_replaceChildren : (heap.replaceChildren h f).1.slots? k = heap.slots? k := by
  unfold Heap.replaceChildren
  cases ho : heap.get? h with
  | none => rfl
  | some o =>
    simp only [Heap.slots?, Heap.get?_set]
    split
    · rename_i heq
      subst heq
      simp only [ho, Option.map_some, Option.bind_some, Object.slots?_replaceChildren]
    · rfl

/-- Installation replaces items in bodies, and leaves the slots. -/
theorem Chain.slots?_installFrom {size n : Nat} {seen : HandleSet} {stack : List Handle} :
    (installFrom chain size seen stack heap n).2.slots? k = heap.slots? k := by
  fun_induction installFrom chain size seen stack heap n with
  | case1 => rfl
  | case2 => exact Heap.slots?_replaceChildren
  | case3 seen h stack heap n hlt he next ih => exact ih.trans Heap.slots?_replaceChildren
  | case4 seen h stack heap n hlt ih => exact ih

end Installation

section Early

variable {α β : Type}

/-- The traversal adds no fault but early ones. -/
def Lowering.Early (m : Lowering α) : Prop :=
  ∀ s, (∀ e, s = some e → e.Early) → ∀ e, (m s).2 = some e → e.Early

namespace Lowering

theorem Early.pure (a : α) : Early (Pure.pure a) := fun _ hs => hs

theorem Early.bind {m : Lowering α} {f : α → Lowering β} (hm : m.Early) (hf : ∀ a, (f a).Early) :
    (m >>= f).Early :=
  fun s hs => hf (m s).1 (m s).2 (hm s hs)

end Lowering

theorem early_lowerSlot (a : SlotAddr) : (lowerSlot chain a).Early := by
  intro s hs e he
  unfold lowerSlot at he
  split at he
  · cases he
    exact hs e rfl
  · split at he
    · cases he
    · cases he
      rintro _ ⟨⟩
    · rename_i hr
      cases he
      exact chain.early_readSlot a e hr

mutual

theorem Code.early_lower (c : Code) : (c.lower chain).Early := by
  cases c with
  | lit x => exact .pure _
  | comptime a => exact early_lowerSlot a
  | ident name => exact .pure _
  | call c args =>
    exact c.early_lower.bind fun _ => (Code.early_lowerAll args).bind fun _ => .pure _
  | member o name => exact o.early_lower.bind fun _ => .pure _
  | index o k => exact o.early_lower.bind fun _ => k.early_lower.bind fun _ => .pure _
  | array es => exact (Code.early_lowerAll es).bind fun _ => .pure _
  | binary op l r => exact l.early_lower.bind fun _ => r.early_lower.bind fun _ => .pure _
  | lambda params body => exact (Stmt.early_lowerAll body).bind fun _ => .pure _

theorem Code.early_lowerAll (cs : List Code) : (Code.lowerAll chain cs).Early := by
  cases cs with
  | nil => exact .pure _
  | cons c cs => exact c.early_lower.bind fun _ => (Code.early_lowerAll cs).bind fun _ => .pure _

theorem Stmt.early_lower (s : Stmt) : (s.lower chain).Early := by
  cases s with
  | letBind _ c | exportConst _ c | expr c | ret c => exact c.early_lower.bind fun _ => .pure _
  | retVoid => exact .pure _

theorem Stmt.early_lowerAll (ss : List Stmt) : (Stmt.lowerAll chain ss).Early := by
  cases ss with
  | nil => exact .pure _
  | cons s ss => exact s.early_lower.bind fun _ => (Stmt.early_lowerAll ss).bind fun _ => .pure _

end

namespace Chain

theorem early_follow (start : Item) (seen : PlaceholderSet) (p : Placeholder) :
    FailsWith Fault.Early (follow chain start seen p) := by
  intro e he
  rcases follow_error he with rfl | ⟨q, hr⟩
  · exact fun _ he => nomatch he
  · exact chain.early_read q e hr

theorem early_unsettled? {e : Fault} (he : unsettled? chain x = some e) : e.Early := by
  have hsettle : FailsWith Fault.Early (settle chain x) := by
    cases x with
    | hole p => exact (early_follow _ _ p).bind fun _ => .pure _
    | _ => exact .pure _
  unfold unsettled? at he
  split at he
  · cases he
  · rename_i e' hs
    cases he
    exact hsettle e hs

theorem early_installFrom {size n : Nat} {seen : HandleSet} {stack : List Handle} :
    FailsWith Fault.Early (installFrom chain size seen stack heap n).1 := by
  fun_induction installFrom chain size seen stack heap n with
  | case1 => exact .pure _
  | case2 seen h stack heap n hlt e he =>
    obtain ⟨x, -, hx⟩ := List.exists_of_findSome?_eq_some he
    exact .throw (early_unsettled? hx)
  | case3 seen h stack heap n hlt he next ih => exact ih
  | case4 seen h stack heap n hlt ih => exact ih

end Chain

theorem early_checkKnown (heap : Heap) (roots : List Item) :
    FailsWith Fault.Early (checkKnown heap roots) := by
  unfold checkKnown
  dsimp only
  split
  · exact .pure _
  · rename_i e he
    unfold validate at he
    split at he
    · cases he
      exact .throw fun _ he => nomatch he
    · split at he <;> cases he
  · exact .throw fun _ he => nomatch he

namespace Draft

theorem early_settledProgram (d : Draft) (chain : Chain) :
    FailsWith Fault.Early (d.settledProgram chain) := by
  unfold settledProgram
  split
  · rename_i p e hp
    have hearly : (Stmt.lowerAll chain d.program).Early := Stmt.early_lowerAll d.program
    exact .throw (hearly none (fun _ he => nomatch he) e (congrArg Prod.snd hp))
  · rw [settleProgram_eq]
    split
    · rename_i e he
      obtain ⟨x, -, hx⟩ := List.exists_of_findSome?_eq_some he
      exact .throw (Chain.early_unsettled? hx)
    · exact .pure _

theorem early_installed (d : Draft) (w : World) (p : Program) :
    FailsWith Fault.Early (d.installed w p) := by
  have hinstall : FailsWith Fault.Early
      (w.chain.install (w.context.frame.items ++ Stmt.itemsAll p) w.heap).1 :=
    Chain.early_installFrom
  unfold installed
  split
  · exact (early_checkKnown _ _).bind fun _ => .pure _
  · rename_i e heap he
    rw [he] at hinstall
    exact .throw (hinstall e rfl)

/-- The world in which the slots are resolved brings along the bodies of the unit. -/
theorem makes_start (d : Draft) : d.start.Makes d.bodies where
  heap := List.subset_append_left _ _
  expr := by
    have hgroups : bodiesOf (GroupOf.partsAll true d.groups) ⊆ d.bodies :=
      List.subset_append_right _ _
    exact (Frame.admitted_empty.addGroups (bodiesOf_subset.mp hgroups)).congr d.groups_frame

theorem makes_resolve (d : Draft) : (World.resolve d.start).2.Makes d.bodies ∧
    FailsWith Fault.Early (World.resolve d.start).1 :=
  d.makes_start.resolveWith (Qualifier.copies_qualifyWithin depthLimit)

/-- Resolution finds no slot that was not lowered. -/
theorem early_resolve (d : Draft) : FailsWith Fault.Early d.resolve := by
  match hw : World.resolve d.start with
  | (.error e, w) =>
    have hearly := d.makes_resolve.2
    rw [hw] at hearly
    rw [Draft.resolve_of_error hw]
    exact .throw (hearly e rfl)
  | (.ok n, w) =>
    obtain ⟨notes, hresolve⟩ := Draft.resolve_of_ok hw
    rw [hresolve]
    exact (d.early_settledProgram w.chain).bind fun p =>
      (d.early_installed w p).bind fun _ => .pure _

end Draft

end Early

theorem Fault.category_eq_notLowered {e : Fault} :
    e.report.category = "not-lowered" ↔ ∃ a, e = .notLowered a := by
  cases e <;> simp [Fault.report, Report.category]

/-- A unit fails to compile if it is not resolved or not emitted. -/
theorem compile_eq_error {options : Options} {e : StageError} (h : compile d options = .error e) :
    (∃ fault, d.resolve = .error fault ∧ e.category = fault.report.category) ∨
      ∃ r ds fault, d.resolve = .ok (r, ds) ∧ e.category = fault.report.category ∧
        emit r.program r.heap r.track.1.tracker options.naming = .error fault := by
  simp only [compile, Pipeline.andThen, Pipeline.start, resolveStage, trackStage, emitStage,
    Stage.ofFallible, Tracked.emit, Resolved.track] at h
  cases hr : d.resolve with
  | error fault =>
    simp only [hr] at h
    cases h
    exact Or.inl ⟨fault, rfl, rfl⟩
  | ok u =>
    obtain ⟨r, ds⟩ := u
    simp only [hr] at h
    refine Or.inr ⟨r, ds, ?_⟩
    cases he : emit r.program r.heap r.track.1.tracker options.naming with
    | ok m =>
      simp only [Resolved.track] at he
      simp [he, Bind.bind, Except.bind, Pure.pure, Except.pure] at h
    | error fault =>
      simp only [Resolved.track] at he
      simp only [he, Bind.bind, Except.bind] at h
      cases h
      exact ⟨fault, rfl, rfl, rfl⟩

namespace Resolved

variable {r : Resolved}

/-- The objects that are written: those with a binding, those without one that the program names,
and what is inside them. -/
inductive Writes (r : Resolved) : Handle → Prop
  | bound {k : Handle} (ht : r.track.1.tracker.isTracked k) (hlt : k < r.heap.size) : Writes r k
  | named {k : Handle} (hk : k ∈ r.track.1.tracker.unnamed (Stmt.itemsAll r.program)) : Writes r k
  | inside {h k : Handle} (hh : Writes r h)
    (hk : k ∈ Tracker.inlined r.heap r.track.1.tracker h) : Writes r k

theorem Writes.reach (hk : r.Writes k) : r.heap.Reach r.roots k := by
  induction hk with
  | bound ht hlt =>
    obtain ⟨done, hl, hq⟩ := r.ledger_track
    exact hl.reach_of_isTracked hq ht
  | named hk => exact .start (List.mem_of_mem_filter hk)
  | inside _ hk ih => exact .step ih (Tracker.nests_of_mem_inlined hk).1

/-- The log of an emission names all that is written. -/
theorem Writes.mem_log {names : Naming} {log : List Handle}
    (hw : Tracker.Written r.heap r.track.1.tracker (r.begun names) log) (hk : r.Writes k) :
    k ∈ log := by
  have hbegun : ∀ h ∈ r.begun names, h ∈ log := fun h hh =>
    hw.perm.mem_iff.mpr (List.mem_append_left _ hh)
  induction hk with
  | bound ht hlt =>
    refine hbegun _ (List.mem_append_right _ (Output.mem_order ?_ hlt))
    exact Tracker.isTracked_iff.mp ht
  | named hk => exact hbegun _ (List.mem_append_left _ hk)
  | inside _ hk ih =>
    exact hw.perm.mem_iff.mpr (List.mem_append_right _ (List.mem_flatMap.mpr ⟨_, ih, hk⟩))

theorem Writes.slots_of_emit {names : Naming} {m : Modules}
    (hm : emit r.program r.heap r.track.1.tracker names = .ok m) (hk : r.Writes k) :
    r.heap.slots k = [] := by
  obtain ⟨log, hw, -⟩ := notes_emit r.program r.heap r.track.1.tracker names m hm
  exact hw.slots k (hk.mem_log hw)

/-- Emission fails only at a function that is written. -/
theorem failsWith_emit_writes (hknown : checkKnown r.heap (Stmt.itemsAll r.program) = .ok ())
    (hslots : Stmt.slotsAll r.program = []) (names : Naming) :
    FailsWith (r.heap.UnloweredIn r.Writes)
      (emit r.program r.heap r.track.1.tracker names) := by
  refine failsWith_emit (fun name => ?_) (fun x hx => ?_) hslots
  · have hc := complete hknown name
    exact ⟨fun hk => hc.items hk.reach, fun ht hlt => .bound ht hlt, fun hh hk => .inside hh hk,
      fun hk => hc.ends hk.reach⟩
  · refine ⟨(canWrite_program hknown x hx).1, fun k he hn => .named ?_⟩
    exact Tracker.mem_unnamed.mpr ⟨he ▸ hx, hn⟩

end Resolved

namespace Draft

variable {r : Resolved} {ds : List Diagnostic} {f : Closure}

theorem slots?_installed {p : Program} {u : Nat × Resolved} (h : d.installed w p = .ok u) :
    u.2.heap.slots? k = w.heap.slots? k := by
  unfold Draft.installed at h
  split at h
  · rename_i n heap hi
    obtain ⟨_, -, h⟩ := bind_eq_ok.mp h
    obtain rfl := pure_eq_ok.mp h
    have hslots : (w.chain.install (w.context.frame.items ++ Stmt.itemsAll p) w.heap).2.slots? k =
        w.heap.slots? k := Chain.slots?_installFrom
    rwa [hi] at hslots
  · cases h

/-- A function of a resolved unit refers to the slots that are written in its body. -/
theorem slots_of_resolve (h : d.resolve = .ok (r, ds))
    (hf : r.heap.get? k = some (.function f)) :
    ∃ body ∈ d.bodies, Stmt.slotsAll f.body = Stmt.slotsAll body := by
  obtain ⟨n, w, k', hw, -, hu⟩ := Draft.exists_of_resolve h
  have hbodies := d.makes_resolve.1.heap
  rw [Draft.start, hw] at hbodies
  have hslots : w.heap.slots? k = some (Stmt.slotsAll f.body) := by
    rw [← slots?_installed hu, Heap.slots?, hf]
    rfl
  obtain ⟨o, ho, hslots⟩ := Option.bind_eq_some_iff.mp hslots
  cases o with
  | function g =>
    have hbody := Heap.bodies_subset.mp hbodies k _ ho List.mem_cons_self
    exact ⟨g.body, hbody, (Option.some.inj hslots).symm⟩
  | seq | type | anchor | feature | record => cases hslots

/-- If emission finds a slot that was not lowered, it is in a function that is written. -/
theorem exists_unlowered {options : Options} {e : StageError} (he : compile d options = .error e)
    (hcategory : e.category = "not-lowered") :
    ∃ r ds k f, d.resolve = .ok (r, ds) ∧ r.Writes k ∧ r.heap.get? k = some (.function f) ∧
      Stmt.slotsAll f.body ≠ [] := by
  rcases compile_eq_error he with ⟨fault, hr, hfault⟩ | ⟨r, ds, fault, hr, -, hemit⟩
  · obtain ⟨a, rfl⟩ := Fault.category_eq_notLowered.mp (hfault.symm.trans hcategory)
    exact absurd rfl (d.early_resolve _ hr a)
  · obtain ⟨hknown, hslots⟩ := Draft.known_of_resolve hr
    obtain ⟨k, f, a, hk, hf, ha, -⟩ :=
      Resolved.failsWith_emit_writes hknown hslots options.naming fault hemit
    exact ⟨r, ds, k, f, hr, hk, hf, List.ne_nil_of_mem ha⟩

/-- If a function that is written refers to a slot, emission finds that. -/
theorem compile_unlowered (options : Options) (hr : d.resolve = .ok (r, ds)) (hk : r.Writes k)
    (hf : r.heap.get? k = some (.function f)) (hs : Stmt.slotsAll f.body ≠ []) :
    ∃ e, compile d options = .error e ∧ e.category = "not-lowered" := by
  cases hc : compile d options with
  | ok m =>
    obtain ⟨r', ds', hr', hm⟩ := compile_eq_ok_iff.mp hc
    cases hr.symm.trans hr'
    have hnil := hk.slots_of_emit hm
    rw [Heap.slots_of_get? hf] at hnil
    exact absurd hnil hs
  | error e =>
    refine ⟨e, rfl, ?_⟩
    rcases compile_eq_error hc with ⟨fault, hr', -⟩ | ⟨r', ds', fault, hr', hcategory, hm⟩
    · cases hr.symm.trans hr'
    · cases hr.symm.trans hr'
      obtain ⟨hknown, hslots⟩ := Draft.known_of_resolve hr
      obtain ⟨-, -, a, -, -, -, rfl⟩ :=
        Resolved.failsWith_emit_writes hknown hslots options.naming fault hm
      exact hcategory

/-- Resolution lowers the program and no function. In what it leaves, the program refers to no slot,
and every function refers to the slots that are written in its body. So a unit fails to compile for
that reason exactly if it can be resolved and some function that is to be written refers to a slot;
if no body of the unit refers to one, it never fails so. -/
theorem lowers_program_only (d : Draft) :
    (∀ r ds, d.resolve = .ok (r, ds) → Stmt.slotsAll r.program = [] ∧
      ∀ k f, r.heap.get? k = some (.function f) →
        ∃ body ∈ d.bodies, Stmt.slotsAll f.body = Stmt.slotsAll body) ∧
    (∀ options, (∃ e, compile d options = .error e ∧ e.category = "not-lowered") ↔
      ∃ r ds k f, d.resolve = .ok (r, ds) ∧ r.Writes k ∧ r.heap.get? k = some (.function f) ∧
        Stmt.slotsAll f.body ≠ []) ∧
    ((∀ body ∈ d.bodies, Stmt.slotsAll body = []) →
      ∀ options e, compile d options = .error e → e.category ≠ "not-lowered") := by
  refine ⟨fun r ds hr => ⟨(Draft.known_of_resolve hr).2, fun k f hf => slots_of_resolve hr hf⟩,
    fun options => ⟨?_, ?_⟩, fun hclean options e he hcategory => ?_⟩
  · rintro ⟨e, he, hcategory⟩
    exact exists_unlowered he hcategory
  · rintro ⟨r, ds, k, f, hr, hk, hf, hs⟩
    exact compile_unlowered options hr hk hf hs
  · obtain ⟨r, ds, k, f, hr, -, hf, hs⟩ := exists_unlowered he hcategory
    obtain ⟨body, hbody, hslots⟩ := slots_of_resolve hr hf
    exact hs (hslots.trans (hclean body hbody))

end Draft

/-- A function that refers to a slot of its own unit. -/
def reading : Draft where
  name := "reading"
  groups := [⟨0, "g", [.lit (.bool true), .function "f" [] [.ret (.comptime ⟨0, 0⟩)] []]⟩]
  program := [.exportConst "f" (.comptime ⟨0, 1⟩)]

/-- The unit is resolved, the reference stays, and emission fails. -/
theorem Draft.not_lowered_reading :
    ∃ r ds f e, reading.resolve = .ok (r, ds) ∧ r.heap.Reach r.roots 0 ∧
      r.heap.get? 0 = some (.function f) ∧ Stmt.slotsAll f.body = [⟨0, 0⟩] ∧
      compile reading {} = .error e ∧ e.category = "not-lowered" := by
  have hr : reading.resolve = .ok (⟨"reading",
      ⟨#[.function ⟨"f", [], [.ret (.comptime ⟨0, 0⟩)], []⟩]⟩,
      [.exportConst "f" (.lit (.ref 0))]⟩,
      [⟨.info, "reading: resolved in 1 sweeps, 0 placeholders installed", none⟩]) := by cbv
  have hc : compile reading {} = .error ⟨"emit", "not-lowered",
      "comptime reference group0[0] reached emission"⟩ := by cbv
  exact ⟨_, _, _, _, hr, .start List.mem_cons_self, rfl, rfl, hc, rfl⟩

end Comptime
