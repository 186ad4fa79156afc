import Comptime.Proofs.Faults.Compilation
import Comptime.Proofs.Logging

/-! How often an object is written. A tracked object is written once, as its binding. Any other is
written wherever the one object that refers to it says its name, so it is written once unless that
object is a function that captures it and mentions it twice. -/
namespace Comptime

/-- The name of a free identifier. -/
def Leaf.free? : Leaf → Option String
  | .free name => some name
  | _ => none

/-- The captured items that the free identifiers of a function stand for, one for each time such an
identifier is mentioned. -/
def Closure.mentions (f : Closure) : List Item :=
  (Stmt.leavesAll (bindings f.body ++ f.locals) f.body).filterMap fun l =>
    l.free?.bind fun name => f.captures.lookup name

variable {heap : Heap} {g h k : Handle}

theorem perm_captured (captures : Fields) (ls : List Leaf) :
    ((ls.map (Leaf.captured captures)).filterMap Leaf.item?).Perm
      (ls.filterMap Leaf.item? ++
        ls.filterMap fun l => l.free?.bind fun name => captures.lookup name) := by
  induction ls with
  | nil => exact .refl _
  | cons l ls ih =>
    cases l with
    | item x => exact ih.cons x
    | slot a => exact ih
    | free name =>
      simp only [List.map_cons, List.filterMap_cons, Leaf.captured, Leaf.item?, Leaf.free?,
        Option.bind_some]
      cases captures.lookup name with
      | none => exact ih
      | some x => exact (ih.cons x).trans List.perm_middle.symm

/-- The text of a function holds the items of its body and the captured ones that it mentions. -/
theorem Closure.perm_uses (f : Closure) :
    (f.leaves.filterMap Leaf.item?).Perm (Stmt.itemsAll f.body ++ f.mentions) := by
  rw [← (Stmt.parts_leavesAll f.body (bindings f.body ++ f.locals)).1]
  exact perm_captured f.captures _

theorem Closure.count_uses (f : Closure) (k : Handle) :
    (refsOf (f.leaves.filterMap Leaf.item?)).count k =
      (refsOf (Stmt.itemsAll f.body)).count k + (refsOf f.mentions).count k := by
  have hcount := (f.perm_uses.filterMap Item.ref?).count_eq k
  rwa [List.filterMap_append, List.count_append] at hcount

theorem Closure.mem_captures_of_mention {f : Closure} {x : Item} (hx : x ∈ f.mentions) :
    x ∈ f.captures.map Prod.snd := by
  obtain ⟨l, -, he⟩ := List.mem_filterMap.mp hx
  obtain ⟨name, -, he⟩ := Option.bind_eq_some_iff.mp he
  obtain ⟨pre, post, hc, -⟩ := List.lookup_eq_some_iff.mp he
  simp [hc]

theorem Heap.refs_of_function {f : Closure} (hf : heap.get? h = some (.function f)) :
    heap.refs h = refsOf (f.captures.map Prod.snd) ++ refsOf (Stmt.itemsAll f.body) := by
  rw [Heap.refs, Heap.items_of_get? hf, Object.children, List.map_append, map_snd_named,
    map_snd_indexed]
  exact List.filterMap_append

namespace Tracker

variable {t : Tracker} {start hs log asked roots done : List Handle}

theorem count_unnamed (hk : t.isTracked k = false) (items : List Item) :
    (t.unnamed items).count k = (refsOf items).count k := by
  rw [unnamed, List.count_filter]
  simp [hk]

theorem not_mem_unnamed (hk : t.isTracked k) (items : List Item) : k ∉ t.unnamed items := by
  simp [unnamed, hk]

section Log

variable (hw : Written heap t hs log)
include hw

/-- Whatever is written can be reached. -/
theorem Written.reach (hr : ∀ h ∈ hs, heap.Reach start h) : ∀ h ∈ log, heap.Reach start h := by
  induction hw with
  | nil => exact hr
  | @cons h hs inner rest _ _ _ ihi ihr =>
    rw [List.forall_mem_cons] at hr
    have hinner := ihi fun k hk => .step hr.1 (nests_of_mem_inlined hk).1
    exact List.forall_mem_append.mpr ⟨List.forall_mem_cons.mpr ⟨hr.1, hinner⟩, ihr hr.2⟩

/-- What is written was to be written, or is part of the text of something else that is. -/
theorem Written.perm : log.Perm (hs ++ log.flatMap (inlined heap t)) := by
  induction hw with
  | nil => exact .refl _
  | @cons h hs inner rest _ _ _ ihi ihr =>
    refine List.perm_iff_count.mpr fun k => ?_
    have hi := ihi.count_eq k
    have hr := ihr.count_eq k
    simp only [List.count_append, List.count_cons, List.flatMap_append, List.flatMap_cons]
      at hi hr ⊢
    omega

/-- Tracked objects are part of no text. -/
theorem Written.filter_isTracked : log.filter t.isTracked = hs.filter t.isTracked := by
  induction hw with
  | nil => rfl
  | @cons h hs inner rest _ _ _ ihi ihr =>
    have hnone : (inlined heap t h).filter t.isTracked = [] :=
      List.filter_eq_nil_iff.mpr fun k hk ht => not_mem_unnamed ht _ hk
    simp only [List.cons_append, List.filter_cons, List.filter_append, ihi, ihr, hnone,
      List.nil_append]

end Log

section Once

variable (hl : Ledger heap t asked roots done)
include hl

theorem Ledger.count_refs_le (hk : t.isTracked k = false) (hh : h ∈ done) :
    (heap.refs h).count k ≤ 1 := by
  have hsub : (heap.refs h).Sublist (done.flatMap heap.refs) :=
    List.sublist_flatten_of_mem (List.mem_map_of_mem hh)
  have hle := hsub.count_le k
  have hcount := hl.count_le_one hk
  rw [List.count_append] at hcount
  omega

/-- A function that refers to an object without a binding either holds it or captures it. -/
theorem Ledger.count_body_eq_zero {f : Closure} (hf : heap.get? h = some (.function f))
    (hk : t.isTracked k = false) (hh : h ∈ done) (hm : 0 < (refsOf f.mentions).count k) :
    (refsOf (Stmt.itemsAll f.body)).count k = 0 := by
  have hmention := mem_refsOf.mp (List.count_pos_iff.mp hm)
  have hcapture := mem_refsOf.mpr (Closure.mem_captures_of_mention hmention)
  have hpos := List.count_pos_iff.mpr hcapture
  have hle := hl.count_refs_le hk hh
  rw [Heap.refs_of_function hf, List.count_append] at hle
  omega

variable (hq : t.queue.toList = [])
include hq

theorem Ledger.count_inlined_le (hr : heap.Reach (asked ++ roots) h) (hk : k ∈ inlined heap t h)
    (hf : ∀ f, heap.get? h = some (.function f) → (refsOf f.mentions).count k ≤ 1) :
    (inlined heap t h).count k ≤ 1 := by
  obtain ⟨href, hn⟩ := nests_of_mem_inlined hk
  have hdone := hl.mem_done hq hr href
  have hle := hl.count_refs_le hn hdone
  rw [inlined, count_unnamed hn]
  cases ho : heap.get? h with
  | none => simp [Heap.uses, ho, refsOf]
  | some o =>
    cases o with
    | function f =>
      rw [uses_of_function ho, f.count_uses]
      rw [Heap.refs_of_function ho, List.count_append] at hle
      have hzero := hl.count_body_eq_zero ho hn hdone
      have hmention := hf f ho
      omega
    | seq | type | anchor | feature | record =>
      rw [uses_of_not_function ho (by simp), ← Heap.items_of_get? ho]
      exact hle

/-- The objects in the text of an object differ, unless it is a function that mentions one of them
twice. -/
theorem Ledger.nodup_inlined_iff (hr : heap.Reach (asked ++ roots) h) :
    (inlined heap t h).Nodup ↔ ∀ f, heap.get? h = some (.function f) →
      ∀ k, t.isTracked k = false → (refsOf f.mentions).count k ≤ 1 := by
  rw [List.nodup_iff_count_le_one]
  constructor
  · intro hn f hf k hk
    have hle := hn k
    rw [inlined, count_unnamed hk, uses_of_function hf, f.count_uses] at hle
    omega
  · intro hf k
    by_cases hk : k ∈ inlined heap t h
    · have hn := (nests_of_mem_inlined hk).2
      exact hl.count_inlined_le hq hr hk fun f ho => hf f ho k hn
    · rw [List.count_eq_zero.mpr hk]
      exact Nat.zero_le 1

variable (hw : Written heap t hs log) (hreach : ∀ h ∈ hs, heap.Reach (asked ++ roots) h)
  (hroots : ∀ k, t.isTracked k = false → hs.count k ≤ roots.count k)
include hw hreach hroots

/-- An object that comes from outside is in no text, -/
theorem Ledger.count_written_start (hn : t.isTracked k = false) (hk : k ∈ asked ++ roots) :
    log.count k ≤ 1 := by
  have hnone : k ∉ log.flatMap (inlined heap t) := by
    intro hm
    obtain ⟨g, hg, hm⟩ := List.mem_flatMap.mp hm
    exact hl.not_mem_start hq (hw.reach hreach g hg) (nests_of_mem_inlined hm) hk
  have hcount := hw.perm.count_eq k
  rw [List.count_append, List.count_eq_zero.mpr hnone] at hcount
  have hle := hl.count_le_one hn
  rw [List.count_append] at hle
  have hroot := hroots k hn
  omega

/-- and any other is written when the one object that refers to it is. -/
theorem Ledger.count_written_nested (hg : heap.Reach (asked ++ roots) g) (hk : Nests heap t g k) :
    log.count k = log.count g * (inlined heap t g).count k := by
  have hone : ∀ g', g' ≠ g → g' ∈ log → (inlined heap t g').count k = 0 := by
    intro g' hne hg'
    refine List.count_eq_zero.mpr fun hm => hne ?_
    exact hl.nests_unique hq (hw.reach hreach g' hg') hg (nests_of_mem_inlined hm) hk
  have hstart : roots.count k = 0 :=
    List.count_eq_zero.mpr fun hm => hl.not_mem_start hq hg hk (List.mem_append_right asked hm)
  have hcount := hw.perm.count_eq k
  rw [List.count_append, List.count_flatMap, Function.comp_def,
    List.sum_map_eq_nsmul_single g _ hone, smul_eq_mul] at hcount
  have hroot := hroots k hk.2
  omega

/-- Nothing is written twice if no text names anything twice, by induction along the references. -/
theorem Ledger.count_written_le (hn : ∀ h ∈ log, (inlined heap t h).Nodup)
    (htracked : ∀ k, t.isTracked k → log.count k ≤ 1) (hr : heap.Reach (asked ++ roots) k) :
    log.count k ≤ 1 := by
  induction hr with
  | @start k hk =>
    cases ht : t.isTracked k with
    | true => exact htracked k ht
    | false => exact hl.count_written_start hq hw hreach hroots ht hk
  | @step g k hg hk ih =>
    cases ht : t.isTracked k with
    | true => exact htracked k ht
    | false =>
      rw [hl.count_written_nested hq hw hreach hroots hg ⟨hk, ht⟩]
      by_cases hmem : g ∈ log
      · have hone := List.nodup_iff_count_le_one.mp (hn g hmem) k
        exact (Nat.mul_le_mul ih hone).trans_eq (Nat.mul_one 1)
      · simp [List.count_eq_zero.mpr hmem]

end Once

end Tracker

namespace Resolved

variable {r : Resolved} {names : Naming} {log : List Handle}

/-- What the modules of a unit are begun with: the objects that the program names and that have no
binding, and the bindings. -/
def begun (r : Resolved) (names : Naming) : List Handle :=
  r.track.1.tracker.unnamed (Stmt.itemsAll r.program) ++
    (companionOutput r.heap r.track.1.tracker names).order

theorem isTracked_of_mem_order (hk : k ∈ (companionOutput r.heap r.track.1.tracker names).order) :
    r.track.1.tracker.isTracked k :=
  Tracker.isTracked_iff.mpr (Output.mem_tracker_order hk)

theorem reach_begun : ∀ h ∈ r.begun names, r.heap.Reach r.roots h := by
  intro h hh
  obtain ⟨done, hl, hq⟩ := r.ledger_track
  rcases List.mem_append.mp hh with hh | hh
  · exact .start (List.mem_of_mem_filter hh)
  · exact hl.reach_of_isTracked hq (isTracked_of_mem_order hh)

theorem count_begun_le (hk : r.track.1.tracker.isTracked k = false) :
    (r.begun names).count k ≤ r.roots.count k := by
  have hnone : k ∉ (companionOutput r.heap r.track.1.tracker names).order := by
    intro hm
    have ht := isTracked_of_mem_order hm
    simp [hk] at ht
  rw [begun, List.count_append, Tracker.count_unnamed hk, List.count_eq_zero.mpr hnone]
  exact Nat.le_refl _

theorem filter_begun : (r.begun names).filter r.track.1.tracker.isTracked =
    (companionOutput r.heap r.track.1.tracker names).order := by
  have hnone : (r.track.1.tracker.unnamed (Stmt.itemsAll r.program)).filter
      r.track.1.tracker.isTracked = [] :=
    List.filter_eq_nil_iff.mpr fun k hk ht => Tracker.not_mem_unnamed ht _ hk
  rw [begun, List.filter_append, hnone, List.nil_append]
  exact List.filter_eq_self.mpr fun k hk => isTracked_of_mem_order hk

/-- Emission and the objects it writes. All of them can be reached, those that are tracked are
written once and as their bindings, and the others are written once too, unless a function that is
written mentions one of them twice. -/
theorem written_once_iff (r : Resolved) (names : Naming) {m : Modules}
    (h : emit r.program r.heap r.track.1.tracker names = .ok m) :
    ∃ log, (emitLogged r.program r.heap r.track.1.tracker names).run [] = .ok (m, log) ∧
      (∀ k ∈ log, r.heap.Reach r.roots k) ∧
      log.filter r.track.1.tracker.isTracked =
        (companionOutput r.heap r.track.1.tracker names).order ∧
      (∀ k < r.heap.size, r.track.1.tracker.isTracked k → log.count k = 1) ∧
      (log.Nodup ↔ ∀ k ∈ log, ∀ f, r.heap.get? k = some (.function f) →
        ∀ j, r.track.1.tracker.isTracked j = false → (refsOf f.mentions).count j ≤ 1) := by
  obtain ⟨done, hl, hq⟩ := r.ledger_track
  obtain ⟨log, hw, hrun⟩ := notes_emit r.program r.heap r.track.1.tracker names m h
  change Tracker.Written r.heap r.track.1.tracker (r.begun names) log at hw
  have hreach : ∀ k ∈ log, r.heap.Reach r.roots k := hw.reach reach_begun
  have horder : log.filter r.track.1.tracker.isTracked =
      (companionOutput r.heap r.track.1.tracker names).order := by
    rw [hw.filter_isTracked, filter_begun]
  have hcount : ∀ k, r.track.1.tracker.isTracked k →
      log.count k = (companionOutput r.heap r.track.1.tracker names).order.count k := fun k hk => by
    rw [← horder, List.count_filter hk]
  refine ⟨log, hrun [], hreach, horder, fun k hlt hk => ?_, ?_⟩
  · rw [hcount k hk, List.count_eq_one_of_mem Output.nodup_order]
    exact Output.mem_order (Tracker.isTracked_iff.mp hk) hlt
  · have hinlined : log.Nodup ↔ ∀ k ∈ log, (Tracker.inlined r.heap r.track.1.tracker k).Nodup := by
      constructor
      · intro hn
        have hflat := (List.nodup_append.mp (hw.perm.nodup_iff.mp hn)).2.1
        exact (List.nodup_flatMap.mp hflat).1
      · intro hn
        refine List.nodup_iff_count_le_one.mpr fun k => ?_
        by_cases hk : k ∈ log
        · refine hl.count_written_le hq hw reach_begun (fun k hk => count_begun_le hk) hn
            (fun k hk => ?_) (hreach k hk)
          rw [hcount k hk]
          exact List.nodup_iff_count_le_one.mp Output.nodup_order k
        · simp [List.count_eq_zero.mpr hk]
    rw [hinlined]
    exact forall₂_congr fun k hk => hl.nodup_inlined_iff hq (hreach k hk)

end Resolved

/-- A function that captures a list, which holds another object twice. -/
def capturing : Resolved where
  name := "capturing"
  heap := ⟨#[.seq [.ref 2, .ref 2], .function ⟨"f", [], [.ret (.ident "x")], [("x", .ref 0)]⟩,
    .seq []]⟩
  program := [.exportConst "f" (.lit (.ref 1))]

/-- It mentions the list once. -/
theorem Resolved.written_once_iff_capturing :
    ∃ m log, emit capturing.program capturing.heap capturing.track.1.tracker {} = .ok m ∧
      (emitLogged capturing.program capturing.heap capturing.track.1.tracker {}).run [] =
        .ok (m, log) ∧ log.Nodup := by
  have h : emit capturing.program capturing.heap capturing.track.1.tracker {} = .ok
      ⟨"import * as __items from \"./items.js\";\n" ++
        "export const f = function f() \x7b return [__items.item0, __items.item0]; \x7d;",
        "export const item0 = [];", "main.js", "items.js", 0, 1⟩ := by cbv
  obtain ⟨log, hrun, -, -, -, hnodup⟩ := written_once_iff capturing {} h
  refine ⟨_, log, h, hrun, hnodup.mpr fun k hk f hf j hj => ?_⟩
  have hmentions : (refsOf f.mentions).Nodup := by
    rcases k with _ | _ | _ | k <;> cases hf
    decide
  exact List.nodup_iff_count_le_one.mp hmentions j

/-- A function that compares a list it captures with itself. -/
def comparing : Resolved where
  name := "comparing"
  heap := ⟨#[.seq [.null], .function ⟨"f", [],
    [.ret (.binary .eq (.ident "x") (.ident "x"))], [("x", .ref 0)]⟩]⟩
  program := [.exportConst "f" (.lit (.ref 1))]

/-- The list is written twice, so the function compares two lists. -/
theorem Resolved.written_twice_comparing :
    ∃ m, emit comparing.program comparing.heap comparing.track.1.tracker {} = .ok m ∧
      m.primary = "export const f = function f() \x7b return ([null] === [null]); \x7d;" ∧
      (emitLogged comparing.program comparing.heap comparing.track.1.tracker {}).run [] =
        .ok (m, [1, 0, 0]) :=
  ⟨⟨"export const f = function f() \x7b return ([null] === [null]); \x7d;", "", "main.js",
    "items.js", 0, 0⟩, by cbv, rfl, by cbv⟩

end Comptime
