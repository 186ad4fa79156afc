import Comptime.Proofs.Evaluation.Deadlock
import Mathlib

/-! What callers can count on while they sweep a world, bind variables and add groups in any order:
a frozen slot keeps its item, and each sweep tells exactly what it froze and what it left open. -/
namespace Comptime

/-- What a caller can do with a world. -/
inductive Action
  | sweep
  | stall
  | resolve
  | declare (v : VarId) (b : Binding)
  | bindParams (site : Generic) (args : List Item)
  | addGroup (g : Group)

def World.withFrame (w : World) (f : Frame) : World := { w with context.frame := f }

namespace Action

/-- An action may fail. The world it reached is kept however it ends. -/
def run : Action → Job World Unit
  | sweep => do let _ ← World.sweep
  | stall => do let _ ← World.stall
  | resolve => do let _ ← World.resolve
  | declare v b => fun w => (.ok (), w.withFrame (w.context.frame.declare v b))
  | bindParams site args => fun w =>
    match w.context.frame.bindParams site args with
    | .ok f => (.ok (), w.withFrame f)
    | .error e => (.error e, w)
  | addGroup g => fun w => (.ok (), w.withFrame (w.context.frame.addGroup g))

/-- A group may be added only under an id that the frame does not have. -/
def Allowed (w : World) : Action → Prop
  | addGroup g => w.context.frame.group? g.id = none
  | _ => True

variable {w w' : World}

/-- An action attempts open slots, or changes no group, or adds one. -/
theorem run_cases (act : Action) :
    World.Attempts (qualifyWithin depthLimit) w (act.run w).2 ∨
      (∃ f, (act.run w).2 = w.withFrame f ∧ f.groups = w.context.frame.groups) ∨
      ∃ g, act = .addGroup g ∧ (act.run w).2 = w.withFrame (w.context.frame.addGroup g) := by
  cases act with
  | sweep =>
    have h := World.Attempts.start.sweep (q := qualifyWithin depthLimit) (w := w)
    refine Or.inl (Job.snd_bind h fun r u hu => ?_)
    rw [World.sweep] at hu
    rwa [hu] at h
  | stall =>
    have h := World.Attempts.start.sweepFrom (q := qualifyWithin depthLimit) (n := 0) (w := w)
    refine Or.inl (Job.snd_bind h fun r u hu => ?_)
    rw [World.stall, World.stallWith] at hu
    rwa [hu] at h
  | resolve =>
    have h := World.Attempts.start.resolve (q := qualifyWithin depthLimit) (w := w)
    refine Or.inl (Job.snd_bind h fun r u hu => ?_)
    rw [World.resolve] at hu
    rwa [hu] at h
  | declare v b => exact Or.inr (Or.inl ⟨_, rfl, rfl⟩)
  | bindParams site args =>
    simp only [run]
    cases h : w.context.frame.bindParams site args with
    | ok f => exact Or.inr (Or.inl ⟨f, rfl, Frame.groups_bindParams h⟩)
    | error e => exact Or.inl .start
  | addGroup g => exact Or.inr (Or.inr ⟨g, rfl, rfl⟩)

theorem frozen_run {act : Action} {a : SlotAddr} {x : Item}
    (ha : act.Allowed w) (hx : w.context.frame.Frozen a x) :
    (act.run w).2.context.frame.Frozen a x := by
  obtain ht | ⟨f, h, hf⟩ | ⟨g, rfl, h⟩ := run_cases act (w := w)
  · exact ht.frozen hx
  · obtain ⟨e, hslot⟩ := hx
    refine ⟨e, ?_⟩
    rw [h, ← hslot]
    simp only [World.withFrame, Frame.slot?, Frame.group?, hf]
  · obtain ⟨e, hslot⟩ := hx
    have hne : g.id ≠ a.group := by
      intro he
      rw [Frame.slot?, ← he, show w.context.frame.group? g.id = none from ha] at hslot
      cases hslot
    refine ⟨e, ?_⟩
    rw [h, World.withFrame, Frame.slot?_addGroup, if_neg hne, hslot]

theorem outer_run (act : Action) : (act.run w).2.context.outer = w.context.outer := by
  obtain ht | ⟨f, h, hf⟩ | ⟨g, -, h⟩ := run_cases act (w := w)
  · exact ht.outer
  · rw [h]
    rfl
  · rw [h]
    rfl

end Action

namespace Frame

variable {f : Frame} {a : SlotAddr} {e : Expr}

theorem isOpen_or_frozen (he : f.expr? a = some e) : f.isOpen a ∨ ∃ x, f.Frozen a x := by
  obtain ⟨⟨e', item⟩, hs, -⟩ := Option.map_eq_some_iff.mp he
  cases item with
  | none => exact Or.inl (isOpen_iff.mpr ⟨e', hs⟩)
  | some x => exact Or.inr ⟨x, e', hs⟩

theorem exists_expr?_of_isOpen (ho : f.isOpen a) : ∃ e, f.expr? a = some e := by
  obtain ⟨e, hs⟩ := isOpen_iff.mp ho
  exact ⟨e, congrArg (Option.map Slot.expr) hs⟩

end Frame

namespace World

/-- The worlds a caller can bring about, also by actions that fail. -/
inductive Reaches (w : World) : World → Prop
  | refl : Reaches w w
  | step {u : World} (h : Reaches w u) (act : Action) (ha : act.Allowed u) :
    Reaches w (act.run u).2

variable {q : Qualifier} {w w' u : World} {a : SlotAddr} {e : Expr}

theorem Reaches.frozen {x : Item} (h : w.Reaches w')
    (hx : w.context.frame.Frozen a x) : w'.context.frame.Frozen a x := by
  induction h with
  | refl => exact hx
  | step h act ha ih => exact Action.frozen_run ha ih

theorem Reaches.outer (h : w.Reaches w') : w'.context.outer = w.context.outer := by
  induction h with
  | refl => rfl
  | step h act ha ih => exact act.outer_run.trans ih

/-- What a part of a sweep does to open slots, if it tries those of `tried`. -/
structure Narrows (tried : Set SlotAddr) (w w' : World) : Prop where
  isOpen : ∀ {b}, w'.context.frame.isOpen b → w.context.frame.isOpen b
  other : ∀ {b}, b ∉ tried → w.context.frame.isOpen b → w'.context.frame.isOpen b

theorem Narrows.trans {s t : Set SlotAddr} (hs : Narrows s w u) (ht : Narrows t u w') :
    Narrows (s ∪ t) w w' where
  isOpen hb := hs.isOpen (ht.isOpen hb)
  other hb ho := ht.other (fun h => hb (Or.inr h)) (hs.other (fun h => hb (Or.inl h)) ho)

theorem Narrows.mono {s t : Set SlotAddr} (hs : Narrows s w w') (hst : s ⊆ t) : Narrows t w w' :=
  ⟨hs.isOpen, fun hb => hs.other fun h => hb (hst h)⟩

theorem narrows_trySlot {r : Bool × Bool} (h : trySlot q a e w = (.ok r, w')) :
    Narrows {a} w w' ∧ (r.2 ↔ w'.context.frame.isOpen a) := by
  unfold trySlot at h
  split at h
  · rename_i ho
    obtain ⟨e', hs⟩ := Frame.isOpen_iff.mp ho
    split at h <;> cases h
    · refine ⟨⟨fun hb => ((isOpen_freeze hs).mp hb).2, fun hb hob => ?_⟩, ?_⟩
      · exact (isOpen_freeze hs).mpr ⟨hb, hob⟩
      · simp [isOpen_freeze hs]
    · exact ⟨⟨id, fun _ => id⟩, by simp [ho]⟩
  · rename_i hn
    cases h
    exact ⟨⟨id, fun _ => id⟩, by simp [hn]⟩

/-- No slot is tried twice, so one that stays open when it is tried is open at the end. -/
theorem narrows_sweepSlots {id : GroupId} {slots : List (Slot × Nat)} {r : Nat × Bool}
    (hn : (slots.map Prod.snd).Nodup) (h : sweepSlots q id slots w = (.ok r, w')) :
    Narrows {a | a.group = id ∧ a.slot ∈ slots.map Prod.snd} w w' ∧
      (r.2 ↔ ∃ i ∈ slots.map Prod.snd, w'.context.frame.isOpen ⟨id, i⟩) := by
  induction slots generalizing w r with
  | nil =>
    cases h
    exact ⟨⟨fun h => h, fun _ h => h⟩, by simp⟩
  | cons p slots ih =>
    obtain ⟨r₁, u, hs, h⟩ := Job.bind_eq_ok.mp h
    obtain ⟨r₂, v, hr, h⟩ := Job.bind_eq_ok.mp h
    cases h
    rw [List.map_cons, List.nodup_cons] at hn
    obtain ⟨h1, hstill⟩ := narrows_trySlot hs
    obtain ⟨h2, hmore⟩ := ih hn.2 hr
    have hkept : u.context.frame.isOpen ⟨id, p.2⟩ ↔ w'.context.frame.isOpen ⟨id, p.2⟩ :=
      ⟨h2.other fun hp => hn.1 hp.2, h2.isOpen⟩
    refine ⟨(h1.trans h2).mono ?_, ?_⟩
    · rintro b (rfl | ⟨hid, hi⟩)
      · exact ⟨rfl, List.mem_cons_self⟩
      · exact ⟨hid, List.mem_cons_of_mem _ hi⟩
    · simp only [Bool.or_eq_true, hstill, hmore, hkept, List.map_cons, List.exists_mem_cons_iff]

/-- The groups have different ids, so what is said of one of them stays true while the next ones
are swept. -/
theorem narrows_sweepGroups {groups : List GroupState} {r : Progress}
    (hg : groups.Pairwise fun g k => g.id < k.id)
    (hopen : ∀ g ∈ groups, ∀ i, w.context.frame.isOpen ⟨g.id, i⟩ → i < g.slots.size)
    (h : sweepGroups q groups w = (.ok r, w')) :
    Narrows {a | a.group ∈ groups.map GroupState.id} w w' ∧
      r.unresolved.Sublist (groups.map GroupState.id) ∧
      ∀ id ∈ groups.map GroupState.id,
        (id ∈ r.unresolved ↔ ∃ i, w'.context.frame.isOpen ⟨id, i⟩) := by
  induction groups generalizing w r with
  | nil =>
    cases h
    exact ⟨⟨fun h => h, fun _ h => h⟩, by simp, by simp⟩
  | cons g groups ih =>
    obtain ⟨r₁, u, hs, h⟩ := Job.bind_eq_ok.mp h
    obtain ⟨r₂, v, hr, h⟩ := Job.bind_eq_ok.mp h
    cases h
    obtain ⟨hlt, hgs⟩ := List.pairwise_cons.mp hg
    have hnew : g.id ∉ groups.map GroupState.id := by
      intro hmem
      obtain ⟨k, hk, hid⟩ := List.mem_map.mp hmem
      exact Nat.ne_of_gt (hlt k hk) hid
    have hidx : g.slots.toList.zipIdx.map Prod.snd = List.range g.slots.size := by
      simp [List.zipIdx_map_snd, List.range_eq_range']
    obtain ⟨h1, hstill⟩ := narrows_sweepSlots (hidx ▸ List.nodup_range) hs
    have hopen' : ∀ k ∈ groups, ∀ i, u.context.frame.isOpen ⟨k.id, i⟩ → i < k.slots.size :=
      fun k hk i ho => hopen k (List.mem_cons_of_mem g hk) i (h1.isOpen ho)
    obtain ⟨h2, hsub, hrest⟩ := ih hgs hopen' hr
    -- A slot of this group is open at the end just if it was after the group's turn.
    have hstill' : r₁.2 ↔ ∃ i, w'.context.frame.isOpen ⟨g.id, i⟩ := by
      rw [hstill, hidx]
      constructor
      · rintro ⟨i, -, ho⟩
        exact ⟨i, h2.other hnew ho⟩
      · rintro ⟨i, ho⟩
        have hlt := hopen g List.mem_cons_self i (h1.isOpen (h2.isOpen ho))
        exact ⟨i, List.mem_range.mpr hlt, h2.isOpen ho⟩
    refine ⟨(h1.trans h2).mono ?_, ?_, fun id hid => ?_⟩
    · rintro b (⟨hid, -⟩ | hmem)
      · exact List.mem_cons.mpr (Or.inl hid)
      · exact List.mem_cons_of_mem _ hmem
    · simp only [List.map_cons]
      split
      · exact hsub.cons_cons g.id
      · exact hsub.cons g.id
    · rw [List.map_cons, List.mem_cons] at hid
      by_cases heq : id = g.id
      · subst heq
        have hnr : g.id ∉ r₂.unresolved := fun h => hnew (hsub.subset h)
        rw [← hstill']
        cases r₁.2 <;> simp [hnr]
      · rw [← hrest id (hid.resolve_left heq)]
        cases r₁.2 <;> simp [heq]

/-- The report of a sweep names the groups it leaves with an open slot, in order. -/
theorem unresolved_sweepWith {p : Progress} (h : sweepWith q w = (.ok p, w')) :
    p.unresolved.Pairwise (· < ·) ∧
      ∀ id, id ∈ p.unresolved ↔ ∃ i, w'.context.frame.isOpen ⟨id, i⟩ := by
  have hopen : ∀ g ∈ w.context.frame.groups, ∀ i, w.context.frame.isOpen ⟨g.id, i⟩ →
      i < g.slots.size := by
    intro g hg i ho
    obtain ⟨e, hslot⟩ := Frame.isOpen_iff.mp ho
    rw [Frame.slot?, Frame.group?_of_mem hg] at hslot
    exact (Array.getElem?_eq_some_iff.mp hslot).1
  obtain ⟨hnarrows, hsub, hmem⟩ := narrows_sweepGroups w.context.frame.ascending hopen h
  have hids := List.pairwise_map.mpr w.context.frame.ascending
  refine ⟨hids.sublist hsub, fun id => ⟨fun hid => ?_, fun hid => ?_⟩⟩
  · exact (hmem id (hsub.subset hid)).mp hid
  · obtain ⟨i, ho⟩ := hid
    obtain ⟨g, hg, hid, -⟩ := Frame.exists_open_slot (hnarrows.isOpen ho)
    exact (hmem id (List.mem_map.mpr ⟨g, hg, hid⟩)).mpr ⟨i, ho⟩

/-- A slot that is open was open before. -/
theorem Attempts.isOpen (ht : Attempts q w u) (ho : u.context.frame.isOpen a) :
    w.context.frame.isOpen a := by
  obtain ⟨e, he⟩ := Frame.exists_expr?_of_isOpen ho
  rcases Frame.isOpen_or_frozen ((ht.expr? a).symm.trans he) with h | ⟨x, hx⟩
  · exact h
  · exact absurd ho (Frame.not_isOpen_of_frozen (ht.frozen hx))

/-- A slot that is no longer open was frozen. -/
theorem Attempts.frozen_iff (ht : Attempts q w u) (ho : w.context.frame.isOpen a) :
    (∃ x, u.context.frame.Frozen a x) ↔ ¬u.context.frame.isOpen a := by
  constructor
  · rintro ⟨x, hx⟩
    exact Frame.not_isOpen_of_frozen hx
  · intro hn
    obtain ⟨e, he⟩ := Frame.exists_expr?_of_isOpen ho
    exact (Frame.isOpen_or_frozen ((ht.expr? a).trans he)).resolve_left hn

/-- The set of open slots shrinks by as many as their number drops. -/
theorem Attempts.ncard_isOpen (ht : Attempts q w u) :
    {a | u.context.frame.isOpen a}.ncard + w.openSlots =
      {a | w.context.frame.isOpen a}.ncard + u.openSlots := by
  induction ht with
  | start => rfl
  | @next u a e ht hs ih =>
    obtain ⟨x, heap, -, h⟩ | ⟨heap, -, h⟩ := trySlot_cases (q := q) hs <;> rw [h]
    · have ho : u.context.frame.isOpen a := Frame.isOpen_iff.mpr ⟨e, hs⟩
      have hcount := Frame.openSlots_freeze x ho
      have hset : {b | (u.freeze a x heap).context.frame.isOpen b} =
          {b | u.context.frame.isOpen b} \ {a} := by
        ext b
        exact (isOpen_freeze hs).trans and_comm
      have hcard := Set.ncard_sdiff_singleton_add_one (s := {b | u.context.frame.isOpen b}) ho
        (Frame.finite_open _)
      rw [hset]
      simp only [openSlots, frame_freeze] at ih hcount ⊢
      omega
    · exact ih

theorem frozen_sweepWith {p : Progress} (h : sweepWith q w = (.ok p, w')) :
    p.frozen =
      {a | w.context.frame.isOpen a ∧ ∃ x, w'.context.frame.Frozen a x}.ncard := by
  have ht : Attempts q w w' := by
    have := Attempts.start.sweep (q := q) (w := w)
    rwa [h] at this
  have hset : {a | w.context.frame.isOpen a ∧ ∃ x, w'.context.frame.Frozen a x} =
      {a | w.context.frame.isOpen a} \ {a | w'.context.frame.isOpen a} := by
    ext a
    exact and_congr_right ht.frozen_iff
  have hsub : {a | w'.context.frame.isOpen a} ⊆ {a | w.context.frame.isOpen a} :=
    fun a => ht.isOpen
  have hdiff := Set.ncard_sdiff_add_ncard_of_subset hsub (Frame.finite_open _)
  have hcount := ht.ncard_isOpen
  have hfrozen := openSlots_sweepWith h
  rw [hset]
  omega

/-- Whatever is done to a world, a frozen slot keeps its item and the frames outside stay as they
are; and a sweep that does not fail tells how many slots it froze and which groups it leaves with an
open slot, in order. -/
theorem Reaches.frozen_for_good (h : w.Reaches w') :
    (∀ a x, w.context.frame.Frozen a x → w'.context.frame.Frozen a x) ∧
    w'.context.outer = w.context.outer ∧
    ∀ p u, World.sweep w' = (.ok p, u) →
      p.frozen =
        {a | w'.context.frame.isOpen a ∧ ∃ x, u.context.frame.Frozen a x}.ncard ∧
      p.unresolved.Pairwise (· < ·) ∧
      ∀ id, id ∈ p.unresolved ↔ ∃ i, u.context.frame.isOpen ⟨id, i⟩ :=
  ⟨fun _ _ => h.frozen, h.outer, fun _ _ hsweep =>
    ⟨frozen_sweepWith hsweep, unresolved_sweepWith hsweep⟩⟩

/-- A literal, a slot that reads a group still to be added, and one that waits for itself. The first
sweep has frozen the literal and failed at the next slot. -/
def expectant : World :=
  (Action.sweep.run { context.frame.groups := [⟨3, "g", #[⟨.lit (.bool true), none⟩,
    ⟨.slot ⟨5, 0⟩, none⟩, ⟨.slot ⟨3, 2⟩, none⟩]⟩] }).2

/-- The group was added, a generic was given too few arguments, and a variable was declared. -/
def supplied : World :=
  let u := ((Action.addGroup ⟨5, "h", [.var 7]⟩).run expectant).2
  let v := ((Action.bindParams ⟨0, "G", [7], [], ⟨9, "body", []⟩⟩ []).run u).2
  ((Action.declare 7 (.item .null)).run v).2

theorem reaches_supplied : expectant.Reaches supplied :=
  ((Reaches.refl.step (.addGroup ⟨5, "h", [.var 7]⟩) (by cbv)).step
    (.bindParams ⟨0, "G", [7], [], ⟨9, "body", []⟩⟩ []) trivial).step
      (.declare 7 (.item .null)) trivial

theorem Reaches.frozen_for_good_supplied :
    supplied.context.frame.Frozen ⟨3, 0⟩ (.bool true) ∧
      (World.sweep supplied).1 = .ok ⟨1, [3]⟩ ∧
      1 = {a | supplied.context.frame.isOpen a ∧
        ∃ x, (World.sweep supplied).2.context.frame.Frozen a x}.ncard ∧
      (3 ∈ [3] ↔ ∃ i, (World.sweep supplied).2.context.frame.isOpen ⟨3, i⟩) := by
  obtain ⟨hfrozen, -, hreport⟩ := reaches_supplied.frozen_for_good
  have hsweep : (World.sweep supplied).1 = .ok ⟨1, [3]⟩ := by cbv
  obtain ⟨hcount, -, hopen⟩ := hreport _ _ (Prod.ext hsweep rfl)
  exact ⟨hfrozen ⟨3, 0⟩ (.bool true) ⟨.lit (.bool true), by cbv⟩, hsweep, hcount, hopen 3⟩

end World

end Comptime
