import Comptime.Proofs.Edges
import Comptime.Proofs.Faults.Emission
import Comptime.Proofs.Renaming.Resolution
import Mathlib

/-! The stages after resolution. What resolution leaves is known as far as it can be reached, so
tracking and emission meet nothing they cannot write, functions that were never lowered apart. -/
namespace Comptime

variable {d : Draft} {r : Resolved} {heap : Heap} {chain : Chain} {x : Item}

theorem Stage.exists_of_ofFallible {α β : Type} {name : String}
    {run : α → Except Fault (β × List Diagnostic)} {a : α} {b : β} {log log' : Log}
    (h : (Stage.ofFallible name run).run a log = (.ok b, log')) : ∃ ds, run a = .ok (b, ds) := by
  simp only [Stage.ofFallible] at h
  split at h
  · rename_i b' ds hrun
    cases h
    exact ⟨ds, hrun⟩
  · cases h

theorem settleProgram_slots {p q : Program} (h : settleProgram chain p = .ok q) :
    Stmt.slotsAll q = Stmt.slotsAll p := by
  rw [settleProgram_eq] at h
  split at h
  · cases h
  · cases h
    exact Stmt.slotsAll_mapItemsAll _ p

theorem Draft.settledProgram_slots {p : Program} (h : d.settledProgram chain = .ok p) :
    Stmt.slotsAll p = [] := by
  unfold Draft.settledProgram at h
  split at h
  · cases h
  · rename_i q hq
    rw [settleProgram_slots h, slots_lowerProgram hq]

theorem Draft.installed_known {w : World} {p : Program} {u : Nat × Resolved}
    (h : d.installed w p = .ok u) :
    u.2.program = p ∧ checkKnown u.2.heap (Stmt.itemsAll p) = .ok () := by
  unfold Draft.installed at h
  split at h
  · obtain ⟨_, hknown, h⟩ := bind_eq_ok.mp h
    obtain rfl := pure_eq_ok.mp h
    exact ⟨rfl, hknown⟩
  · cases h

/-- A unit that resolves has its slots frozen, its program settled, and its heap installed. -/
theorem Draft.exists_of_resolve {ds : List Diagnostic} (h : d.resolve = .ok (r, ds)) :
    ∃ n w k, World.resolve ⟨{ frame := d.frame }, d.heap⟩ = (.ok n, w) ∧
      d.settledProgram w.chain = .ok r.program ∧ d.installed w r.program = .ok (k, r) := by
  match hw : World.resolve ⟨{ frame := d.frame }, d.heap⟩ with
  | (.error e, w) =>
    rw [Draft.resolve_of_error hw] at h
    cases h
  | (.ok n, w) =>
    obtain ⟨notes, hresolve⟩ := Draft.resolve_of_ok hw
    rw [hresolve] at h
    obtain ⟨p, hp, h⟩ := bind_eq_ok.mp h
    obtain ⟨u, hu, h⟩ := bind_eq_ok.mp h
    cases h
    obtain rfl := (Draft.installed_known hu).1
    exact ⟨n, w, u.1, rfl, hp, hu⟩

/-- Resolution leaves known items only, and no slot in the program. -/
theorem Draft.known_of_resolve {ds : List Diagnostic} (h : d.resolve = .ok (r, ds)) :
    checkKnown r.heap (Stmt.itemsAll r.program) = .ok () ∧ Stmt.slotsAll r.program = [] := by
  obtain ⟨_, _, _, -, hp, hu⟩ := Draft.exists_of_resolve h
  exact ⟨(Draft.installed_known hu).2, Draft.settledProgram_slots hp⟩

namespace Resolved

/-- What the program refers to. -/
def roots (r : Resolved) : List Handle := refsOf (Stmt.itemsAll r.program)

/-- Tracking notes the references of the program and of all that it reaches. -/
theorem ledger_track (r : Resolved) :
    ∃ done, Tracker.Ledger r.heap r.track.1.tracker [] r.roots done ∧
      r.track.1.tracker.queue.toList = [] := by
  have hrun : r.track.1.tracker = Tracker.run r.heap {}
      ((Stmt.itemsAll r.program).map .addRoot ++ [.close]) := by
    simp [Resolved.track, Tracker.run, Tracker.call, List.foldl_append, List.foldl_map]
  have hadded : Tracker.added ((Stmt.itemsAll r.program).map .addRoot) = [] := by
    simp [Tracker.added, Tracker.Call.added]
  have hrooted : Tracker.rooted ((Stmt.itemsAll r.program).map .addRoot) = r.roots := by
    simp [Tracker.rooted, Tracker.Call.rooted, List.flatMap_map, roots, refsOf,
      List.filterMap_eq_flatMap_toList]
  have hledger := Tracker.ledger_run_close r.heap ((Stmt.itemsAll r.program).map .addRoot)
  rwa [hadded, hrooted, ← hrun] at hledger

/-- A known item can be written if it can be reached. -/
theorem canWrite (hx : x.isUnknown = false) (hr : ∀ k, x = .ref k → r.heap.Reach r.roots k) :
    CanWrite r.heap r.track.1.tracker x := by
  obtain ⟨done, hl, hq⟩ := r.ledger_track
  cases x with
  | ref k =>
    cases ht : r.track.1.tracker.isTracked k with
    | true => exact Or.inl ht
    | false => exact Or.inr (hl.isInlinable hq (hr k rfl) ht)
  | _ => exact hx

variable (hknown : checkKnown r.heap (Stmt.itemsAll r.program) = .ok ())
include hknown

theorem canWrite_program : ∀ x ∈ Stmt.itemsAll r.program, CanWrite r.heap r.track.1.tracker x ∧
    ∀ k, x = .ref k → r.track.1.tracker.isTracked k = false → r.heap.Reach r.roots k := by
  intro x hx
  have hr : ∀ k, x = .ref k → r.heap.Reach r.roots k := fun k he =>
    .start (mem_refsOf.mpr (he ▸ hx))
  exact ⟨canWrite ((checkKnown_eq_ok_iff.mp hknown).1 x hx) hr, fun k he _ => hr k he⟩

theorem canWrite_items {h : Handle} (hr : r.heap.Reach r.roots h) :
    ∀ x ∈ r.heap.items h, CanWrite r.heap r.track.1.tracker x := by
  intro x hx
  refine canWrite ((checkKnown_eq_ok_iff.mp hknown).2 h hr x hx) fun k he => ?_
  exact .step hr (List.mem_filterMap.mpr ⟨x, hx, by rw [he]; rfl⟩)

theorem complete (name : Nat → String) :
    Output.Complete ⟨r.heap, r.track.1.tracker, name⟩ (r.heap.Reach r.roots) := by
  obtain ⟨done, hl, hq⟩ := r.ledger_track
  exact ⟨fun hr x hx => canWrite_items hknown hr x (Heap.mem_items_of_use hx),
    fun ht _ => hl.reach_of_isTracked hq ht,
    fun hr hk => .step hr (Tracker.nests_of_mem_inlined hk).1, hl.not_nests_self hq⟩

end Resolved

/-- Nothing unknown gets past resolution. The tracking of a resolved unit succeeds; every item of
its program, and of the objects that this reaches, can be written; and its emission succeeds, unless
one of these objects is a function that still refers to a slot. -/
theorem emitStage_of_resolveStage (options : Options) {log log' : Log}
    (h : resolveStage.run d log = (.ok r, log')) :
    ∃ t log'', trackStage.run r log' = (.ok t, log'') ∧
      (∀ x ∈ Stmt.itemsAll t.program, CanWrite t.heap t.tracker x) ∧
      (∀ k, t.heap.Reach (refsOf (Stmt.itemsAll t.program)) k →
        ∀ x ∈ t.heap.items k, CanWrite t.heap t.tracker x) ∧
      ((∃ m, ((emitStage options.naming).run t log'').1 = .ok m) ∨
        ∃ e, ((emitStage options.naming).run t log'').1 = .error e ∧ e.category = "not-lowered" ∧
          ∃ k f, t.heap.Reach (refsOf (Stmt.itemsAll t.program)) k ∧
            t.heap.get? k = some (.function f) ∧ Stmt.slotsAll f.body ≠ []) := by
  obtain ⟨ds, hresolve⟩ := Stage.exists_of_ofFallible h
  obtain ⟨hknown, hslots⟩ := Draft.known_of_resolve hresolve
  refine ⟨r.track.1, _, rfl, fun x hx => (Resolved.canWrite_program hknown x hx).1,
    fun k hk => Resolved.canWrite_items hknown hk, ?_⟩
  have hemit : FailsWith (r.heap.Unlowered r.roots) (r.track.1.emit options.naming) :=
    (failsWith_emit (Resolved.complete hknown) (Resolved.canWrite_program hknown) hslots).bind
      fun _ => .pure _
  cases he : r.track.1.emit options.naming with
  | ok m => exact Or.inl ⟨m.1, by simp [emitStage, Stage.ofFallible, he]⟩
  | error e =>
    obtain ⟨k, f, a, hk, hf, ha, rfl⟩ := hemit e he
    refine Or.inr ⟨.ofReport "emit" (Fault.notLowered a).report, ?_, rfl, k, f, hk, hf,
      List.ne_nil_of_mem ha⟩
    simp [emitStage, Stage.ofFallible, he]

/-- A record and a sequence that hold each other, where the sequence waits for a slot. -/
def waitingRing : Draft where
  name := "ring"
  heap := ⟨#[.record [] [("next", .ref 1)], .seq [.ref 0, .hole (.slot ⟨0, 0⟩)]]⟩
  groups := [⟨0, "value", [.lit (.bool true)]⟩]
  program := [.exportConst "x" (.lit (.ref 0))]

def settledRing : Resolved where
  name := "ring"
  heap := ⟨#[.record [] [("next", .ref 1)], .seq [.ref 0, .bool true]]⟩
  program := [.exportConst "x" (.lit (.ref 0))]

/-- No object of the ring is a function, so it is emitted. -/
theorem emitStage_of_resolveStage_ring :
    ∃ log t log' m, resolveStage.run waitingRing {} = (.ok settledRing, log) ∧
      trackStage.run settledRing log = (.ok t, log') ∧ ((emitStage {}).run t log').1 = .ok m := by
  have h : resolveStage.run waitingRing {} = (.ok settledRing,
      ⟨[⟨.info, "ring: resolved in 1 sweeps, 1 placeholders installed", none⟩], []⟩) := by cbv
  obtain ⟨t, log', ht, -, -, hemit⟩ := emitStage_of_resolveStage {} h
  have hnone : ¬∃ k f, t.heap.Reach (refsOf (Stmt.itemsAll t.program)) k ∧
      t.heap.get? k = some (.function f) ∧ Stmt.slotsAll f.body ≠ [] := by
    cases ht
    rintro ⟨k, f, -, hf, -⟩
    rcases k with _ | _ | k <;> cases hf
  obtain ⟨m, hm⟩ | ⟨e, -, -, hfun⟩ := hemit
  case inr => exact absurd hfun hnone
  exact ⟨_, t, log', m, h, ht, hm⟩

end Comptime
