import Comptime.Compile
import Comptime.Proofs.BindingOrder
import Comptime.Proofs.Renaming.Nesting
import Mathlib

/-! Emission does not depend on the names of the handles, nor on objects that the program does not
reach: the modules are a function of the reachable graph alone. -/
namespace Comptime

variable {r : Renaming} {D : Handle → Prop} {back : Prop}

namespace Output

variable {out out' : Output} {h : Handle} {seen seen' : HandleSet}

/-- A step of the walk on a renamed handle. -/
def Task.rename (r : Renaming) : Task → Task
  | enter h => enter (r.handle h)
  | leave h => leave (r.handle h)

section Order

variable (hm : out.Mirrors r D out')
include hm

theorem Mirrors.needs (hd : D h) :
    out'.needs (r.handle h) = (out.needs h).map r.handle ∧ ∀ k ∈ out.needs h, D k := by
  constructor
  · have hf : ∀ cs : List Child,
        ((cs.map (Child.rename r)).filter fun c => !c.1.isDeferred).map Prod.snd =
          ((cs.filter fun c => !c.1.isDeferred).map Prod.snd).map (Item.rename r) := by
      intro cs
      simp [List.filter_map, Function.comp_def, Child.rename]
    rw [Output.needs, hm.heap.children hd, hf, refsOf_rename, Output.needs]
  · intro k hk
    obtain ⟨x, hx, hxk⟩ := List.mem_filterMap.mp hk
    obtain ⟨c, hc, rfl⟩ := List.mem_map.mp hx
    have hmem : c.2 ∈ out.heap.items h := List.mem_map_of_mem (List.mem_of_mem_filter hc)
    exact hm.heap.closed hd (List.mem_filterMap.mpr ⟨c.2, hmem, hxk⟩)

theorem Mirrors.filter_isTracked {hs : List Handle} (hd : ∀ h ∈ hs, D h) :
    (hs.map r.handle).filter out'.tracker.isTracked =
      (hs.filter out.tracker.isTracked).map r.handle := by
  rw [List.filter_map]
  congr 1
  exact List.filter_congr fun h hh => Tracker.isTracked_mirrors hm.heap hm.tracker (hd h hh)

theorem Mirrors.filter_not_isTracked {hs : List Handle} (hd : ∀ h ∈ hs, D h) :
    (hs.map r.handle).filter (fun d => !out'.tracker.isTracked d) =
      (hs.filter fun d => !out.tracker.isTracked d).map r.handle := by
  rw [List.filter_map]
  congr 1
  refine List.filter_congr fun h hh => ?_
  simp only [Function.comp_apply, Tracker.isTracked_mirrors hm.heap hm.tracker (hd h hh)]

theorem Mirrors.requires (hs : SetMirrors r D seen seen') {stack : List Handle}
    (hd : ∀ h ∈ stack, D h) :
    out'.requires seen' (stack.map r.handle) = (out.requires seen stack).map r.handle := by
  fun_induction out.requires seen stack generalizing seen' with
  | case1 seen => simp [Output.requires]
  | case2 seen h stack next =>
    rename_i ih
    obtain ⟨hneeds, hdn⟩ := hm.needs (hd h List.mem_cons_self)
    have hdu : ∀ k ∈ (out.needs h).filter fun d => !out.tracker.isTracked d, D k :=
      fun k hk => hdn k (List.mem_of_mem_filter hk)
    obtain ⟨hpick, hnext⟩ := pick_mirrors hm.heap hs hdu
    have hstack : ∀ k ∈ next.1.reverse ++ stack, D k := by
      intro k hk
      rcases List.mem_append.mp hk with hk | hk
      · exact hdu k (mem_of_mem_pick (List.mem_reverse.mp hk))
      · exact hd k (List.mem_cons_of_mem h hk)
    have hrest := ih hnext hstack
    rw [List.map_cons, Output.requires, hneeds, hm.filter_isTracked hdn,
      hm.filter_not_isTracked hdn, hpick, ← List.map_reverse, ← List.map_append, hrest,
      List.map_append]

theorem Mirrors.dependencies (hd : D h) :
    out'.dependencies (r.handle h) = (out.dependencies h).map r.handle := by
  have hstack : ∀ k ∈ [h], D k := by simpa using hd
  exact hm.requires SetMirrors.empty hstack

theorem Mirrors.visit (hs : SetMirrors r D seen seen') {tasks : List Task}
    (hd : ∀ t ∈ tasks, D t.target) :
    out'.visit seen' (tasks.map (Task.rename r)) = (out.visit seen tasks).map r.handle := by
  fun_induction out.visit seen tasks generalizing seen' with
  | case1 seen => simp [Output.visit]
  | case2 seen h tasks ih =>
    rw [List.map_cons, Task.rename, Output.visit, List.map_cons,
      ih hs fun t ht => hd t (List.mem_cons_of_mem _ ht)]
  | case3 seen h tasks hn ih =>
    have hh : D h := hd (.enter h) List.mem_cons_self
    have htasks : ∀ t ∈ (out.dependencies h).map Task.enter ++ Task.leave h :: tasks,
        D t.target := by
      intro t ht
      rcases List.mem_append.mp ht with ht | ht
      · obtain ⟨k, hk, rfl⟩ := List.mem_map.mp ht
        exact hm.tracker.mem_order (Tracker.isTracked_iff.mp (isTracked_of_mem_dependencies hk))
      · rcases List.mem_cons.mp ht with rfl | ht
        · exact hh
        · exact hd t (List.mem_cons_of_mem _ ht)
    have hnext := ih (hs.insert hm.heap hh) htasks
    rw [List.map_cons, Task.rename, Output.visit, if_pos (by rwa [hm.heap.lt_iff hh, hs h hh]),
      hm.dependencies hh, ← hnext]
    simp [Task.rename, Function.comp_def]
  | case4 seen h tasks hn ih =>
    have hh : D h := hd (.enter h) List.mem_cons_self
    rw [List.map_cons, Task.rename, Output.visit, if_neg (by rwa [hm.heap.lt_iff hh, hs h hh])]
    exact ih hs fun t ht => hd t (List.mem_cons_of_mem _ ht)

/-- The bindings come in the same order. -/
theorem Mirrors.order : out'.order = out.order.map r.handle := by
  have hd : ∀ t ∈ out.tracker.order.map Task.enter, D t.target := by
    intro t ht
    obtain ⟨k, hk, rfl⟩ := List.mem_map.mp ht
    exact hm.tracker.mem_order hk
  have hvisit := hm.visit SetMirrors.empty hd
  rw [Output.order, Output.order, ← hvisit, hm.tracker.order]
  simp [Task.rename, Function.comp_def]

end Order

section Binding

variable {ps qs : List Piece} {p q : Piece} {bound bound' : HandleSet}

theorem Mirrors.pieceText (hm : out.Mirrors r D out') (hs : SetMirrors r D bound bound')
    (hp : p.Mirrors Eq r D q) : out'.pieceText bound' q = out.pieceText bound p := by
  cases hp with
  | text s => rfl
  | @ref path _ k hq hd => simp only [Output.pieceText, hs k hd, hm.binding hd]

theorem Mirrors.patch? (hm : out.Mirrors r D out') (hs : SetMirrors r D bound bound')
    (hp : p.Mirrors Eq r D q) : out'.patch? bound' q = out.patch? bound p := by
  cases hp with
  | text s => rfl
  | @ref path path' k hq hd =>
    subst hq
    simp only [Output.patch?, hs k hd, hm.binding hd]

/-- What is written for an object does not depend on names, given that its pieces do not. -/
theorem Mirrors.bindingLine (hm : out.Mirrors r D out') (hs : SetMirrors r D bound bound')
    (hd : D h) (hp : PiecesMirror Eq r D ps qs) :
    out'.bindingLine bound' (r.handle h) qs = out.bindingLine bound h ps := by
  have htexts : qs.map (out'.pieceText bound') = ps.map (out.pieceText bound) := by
    induction hp with
    | nil => rfl
    | cons h _ ih => rw [List.map_cons, List.map_cons, ih, hm.pieceText hs h]
  exact congrArg₂ (fun name texts =>
    "export const " ++ name ++ " = " ++ String.join texts ++ ";") (hm.binding hd) htexts

theorem Mirrors.patches (hm : out.Mirrors r D out') (hs : SetMirrors r D bound bound')
    (hp : PiecesMirror Eq r D ps qs) :
    qs.filterMap (out'.patch? bound') = ps.filterMap (out.patch? bound) := by
  induction hp with
  | nil => rfl
  | cons h _ ih => rw [List.filterMap_cons, List.filterMap_cons, ih, hm.patch? hs h]

theorem agrees_bindAll (hm : out.Mirrors r D out') (hs : SetMirrors r D bound bound')
    {rest : List Handle} (hd : ∀ h ∈ rest, D h) :
    Agrees back Eq (out.bindAll out.define bound rest)
      (out'.bindAll out'.define bound' (rest.map r.handle)) := by
  induction rest generalizing bound bound' with
  | nil => exact .pure rfl
  | cons h rest ih =>
    have hh := hd h List.mem_cons_self
    have hrest := ih (hs.insert hm.heap hh) fun k hk => hd k (List.mem_cons_of_mem h hk)
    refine (agrees_define hm hh).bind fun ps qs hps => hrest.bind_eq fun lp => ?_
    obtain ⟨lines, patches⟩ := lp
    rw [hm.bindingLine hs hh hps, hm.patches hs hps]
    exact .pure rfl

theorem agrees_companion (hm : out.Mirrors r D out') :
    Agrees back Eq out.companion out'.companion := by
  have hd : ∀ h ∈ out.order, D h := fun h hmem => hm.tracker.mem_order (mem_tracker_order hmem)
  rw [companion, companion, hm.order]
  exact agrees_bindAll hm SetMirrors.empty hd

end Binding

end Output

section Stages

variable {heap heap' : Heap} {t u : Tracker} {program : Program} {names : Naming}

theorem agrees_renderProgram {w w' : Writer (Except Fault)} (hw : w.Agrees back r w')
    (hi : ∀ x ∈ Stmt.itemsAll program, Agrees back Eq (w.item x) (w'.item (x.rename r))) :
    Agrees back Eq (renderProgram w program) (renderProgram w' (Stmt.renameAll r program)) :=
  (agrees_renderBlock hw [] program hi).bind_eq fun _ => .pure rfl

theorem agrees_emit (hm : heap.Mirrors r D heap') (ht : t.Mirrors r D u)
    (hg : ∀ g, (r.generic g).name = g.name) (hp : ∀ x ∈ Stmt.itemsAll program, x.Within D) :
    Agrees back Eq (emit program heap t names)
      (emit (Stmt.renameAll r program) heap' u names) := by
  have hout (name : Nat → String) : (⟨heap, t, name⟩ : Output).Mirrors r D ⟨heap', u, name⟩ :=
    ⟨hm, ht, rfl, hg⟩
  have hbody : Agrees back Eq (renderProgram (primaryOutput heap t names).writer program)
      (renderProgram (primaryOutput heap' u names).writer (Stmt.renameAll r program)) :=
    agrees_renderProgram Output.agrees_plainWriter fun x hx =>
      Output.agrees_inline (hout names.imported) (hp x hx)
  have hcomp : Agrees back Eq (companionText heap t names) (companionText heap' u names) :=
    (Output.agrees_companion (hout names.binding)).bind_eq fun lp => .pure rfl
  have hempty : u.order.isEmpty = t.order.isEmpty := by rw [ht.order, List.isEmpty_map]
  have hsize : u.size = t.size := by
    rw [← Tracker.length_order, ← Tracker.length_order, ht.order, List.length_map]
  simp only [emit, emitWith, hempty, hsize]
  exact hbody.bind_eq fun body => hcomp.bind_eq fun cp => .pure rfl

theorem Tracker.mirrors_foldl_addRoot (hm : heap.Mirrors r D heap') (items : List Item)
    (hi : ∀ x ∈ items, x.Within D) (ht : t.Mirrors r D u) :
    (items.foldl (addRoot heap) t).Mirrors r D
      ((items.map (Item.rename r)).foldl (addRoot heap') u) := by
  induction items generalizing t u with
  | nil => exact ht
  | cons x items ih =>
    refine ih (fun y hy => hi y (List.mem_cons_of_mem x hy)) ?_
    cases x with
    | ref h => exact mirrors_refer hm ht (hi _ List.mem_cons_self h rfl)
    | _ => exact ht

/-- Tracking and emission of a resolved unit. -/
def finish (names : Naming) : Pipeline Resolved Modules :=
  (Pipeline.start.andThen trackStage).andThen (emitStage names)

/-- The pipeline ends with the modules that are emitted, whatever it shows on its way. -/
theorem finish_eq_ok_iff {unit : Resolved} {verbose : Bool} {log : Log} {m : Modules} :
    (finish names verbose unit log).1 = .ok m ↔
      emit unit.program unit.heap unit.track.1.tracker names = .ok m := by
  simp only [finish, Pipeline.andThen, Pipeline.start, trackStage, emitStage, Stage.ofFallible,
    Tracked.emit, Resolved.track]
  cases emit unit.program unit.heap _ names with
  | ok n => simp [Bind.bind, Except.bind, Pure.pure, Except.pure]
  | error e => simp [Bind.bind, Except.bind]

/-- The handles that the program of a unit leads to. -/
def Resolved.Reach (unit : Resolved) : Handle → Prop :=
  unit.heap.Reach (refsOf (Stmt.itemsAll unit.program))

/-- The renaming carries the program of the first unit to that of the second, and the objects it
reaches to those of the second, without letting two of them meet. Generics may change as long as
they keep their names. -/
structure Resolved.Mirrors (r : Renaming) (unit unit' : Resolved) : Prop where
  program : unit'.program = Stmt.renameAll r unit.program
  inj : ∀ {h k}, unit.Reach h → unit.Reach k → r.handle h = r.handle k → h = k
  get? : ∀ {h}, unit.Reach h →
    unit'.heap.get? (r.handle h) = (unit.heap.get? h).map (Object.rename r)
  generic : ∀ g, (r.generic g).name = g.name

theorem Resolved.Mirrors.agrees_emit {unit unit' : Resolved} (hm : unit.Mirrors r unit') :
    Agrees back Eq (emit unit.program unit.heap unit.track.1.tracker names)
      (emit unit'.program unit'.heap unit'.track.1.tracker names) := by
  have hheap : unit.heap.Mirrors r unit.Reach unit'.heap := ⟨hm.inj, .step, hm.get?⟩
  have hitems : ∀ x ∈ Stmt.itemsAll unit.program, x.Within unit.Reach :=
    fun x hx => within_of_refsOf (fun h hh => .start hh) hx
  have htrack : unit.track.1.tracker.Mirrors r unit.Reach unit'.track.1.tracker := by
    simp only [Resolved.track, hm.program, Stmt.itemsAll_rename]
    exact Tracker.mirrors_close hheap
      (Tracker.mirrors_foldl_addRoot hheap _ hitems Tracker.mirrors_empty)
  rw [hm.program]
  exact Comptime.agrees_emit hheap htrack hm.generic hitems

/-- The emitted modules depend on the reachable graph only, up to the names of the handles. -/
theorem finish_eq_ok_of_mirrors {unit unit' : Resolved} (hm : unit.Mirrors r unit')
    (verbose verbose' : Bool) (log log' : Log) (m : Modules) :
    (finish names verbose unit log).1 = .ok m ↔ (finish names verbose' unit' log').1 = .ok m := by
  rw [finish_eq_ok_iff, finish_eq_ok_iff]
  exact hm.agrees_emit.ok_iff m

/-- Two records that refer to each other. -/
def ring : Resolved where
  name := "ring"
  heap := ⟨#[.record [] [("next", .ref 1)], .record [] [("next", .ref 0), ("list", .ref 2)],
    .seq [.bool true]]⟩
  program := [.exportConst "a" (.lit (.ref 0))]

/-- The same two records, stored the other way round behind an object that nothing refers to. -/
def shuffledRing : Resolved where
  name := "shuffled ring"
  heap := ⟨#[.anchor "unused", .seq [.bool true], .record [] [("next", .ref 3), ("list", .ref 1)],
    .record [] [("next", .ref 2)]]⟩
  program := [.exportConst "a" (.lit (.ref 3))]

def ringModules : Modules where
  primary := "import * as __items from \"./items.js\";\nexport const a = __items.item0;"
  companion := "export const item1 = \x7b next: undefined, list: [true] \x7d;\n" ++
    "export const item0 = \x7b next: item1 \x7d;\nitem1.next = item0;"
  primaryFile := "main.js"
  companionFile := "items.js"
  patches := 1
  tracked := 2

theorem ring_mirrors : ring.Mirrors { handle := fun h => 3 - h } shuffledRing := by
  have hlt : ∀ {h : Nat}, ring.Reach h → h < 3 := by
    intro h hr
    have hclosed : ring.heap.Closed := by decide
    exact hr.lt hclosed (by decide)
  refine ⟨rfl, fun {h k} hr hs he => ?_, fun {h} hr => ?_, fun _ => rfl⟩
  · have hsub : ∀ a b : Nat, a < 3 → b < 3 → 3 - a = 3 - b → a = b := by omega
    exact hsub h k (hlt hr) (hlt hs) he
  · have hh := hlt hr
    match h, hh with
    | 0, _ | 1, _ | 2, _ => rfl

theorem finish_shuffledRing : ring.Mirrors { handle := fun h => 3 - h } shuffledRing ∧
    (finish {} false ring {}).1 = .ok ringModules ∧
    (finish {} true shuffledRing {}).1 = .ok ringModules := by
  have hring : (finish {} false ring {}).1 = .ok ringModules := by cbv
  exact ⟨ring_mirrors, hring, (finish_eq_ok_of_mirrors ring_mirrors _ _ _ _ _).mp hring⟩

end Stages

end Comptime
