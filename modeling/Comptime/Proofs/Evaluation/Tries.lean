import Comptime.Proofs.Evaluation.Frames

/-! Sweeps as runs of single tries. All that is used of a stall is that its world is reached by
tries, and that what is still open waits there. -/
namespace Comptime

/-- One slot frozen: the world it was tried in, the item it got, and the heap after that. -/
structure Freeze where
  addr : SlotAddr
  before : World
  item : Item
  after : Heap

namespace World

def freeze (w : World) (a : SlotAddr) (x : Item) (heap : Heap) : World :=
  ⟨{ w.context with frame := w.context.frame.freeze a x }, heap⟩

@[simp]
theorem frame_freeze (w : World) (a : SlotAddr) (x : Item) (heap : Heap) :
    (w.freeze a x heap).context.frame = w.context.frame.freeze a x := rfl

/-- The worlds reached from `w₀` by trying slots, with the slots frozen on the way, the latest
first. -/
inductive Tries (q : Qualifier) (w₀ : World) : List Freeze → World → Prop
  | start : Tries q w₀ [] w₀
  | freeze {log : List Freeze} {w : World} {a : SlotAddr} {e : Expr} {x : Item} {heap : Heap}
    (ht : Tries q w₀ log w) (hs : w.context.frame.slot? a = some ⟨e, none⟩)
    (he : e.evalWith q w.chain w.heap = (.resolved x, heap)) :
    Tries q w₀ (⟨a, w, x, heap⟩ :: log) (w.freeze a x heap)
  | wait {log : List Freeze} {w : World} {a : SlotAddr} {e : Expr} {heap : Heap}
    (ht : Tries q w₀ log w) (hs : w.context.frame.slot? a = some ⟨e, none⟩)
    (he : e.evalWith q w.chain w.heap = (.pending, heap)) :
    Tries q w₀ log { w with heap }

/-- In some world with this context the slot is tried in vain. -/
def Waits (q : Qualifier) (w₀ : World) (context : Context) (a : SlotAddr) : Prop :=
  ∃ log u e heap, Tries q w₀ log u ∧ u.context = context ∧
    context.frame.slot? a = some ⟨e, none⟩ ∧ e.evalWith q u.chain u.heap = (.pending, heap)

/-- In some world a slot is tried and fails with this fault. -/
def Fails (q : Qualifier) (w₀ : World) (fault : Fault) : Prop :=
  ∃ log u a e heap, Tries q w₀ log u ∧ u.context.frame.slot? a = some ⟨e, none⟩ ∧
    e.evalWith q u.chain u.heap = (.failed fault, heap)

/-- What a part of a sweep over some slots does: `n` of them are frozen, and `still` says whether
one of them stayed open. -/
structure Swept (q : Qualifier) (w₀ : World) (as : List SlotAddr) (w w' : World) (n : Nat)
    (still : Bool) : Prop where
  tries : ∃ log, Tries q w₀ log w'
  expr? : ∀ b, w'.context.frame.expr? b = w.context.frame.expr? b
  isOpen : ∀ {b}, w'.context.frame.isOpen b → w.context.frame.isOpen b
  idle : n = 0 → w'.context = w.context
  waits : n = 0 → ∀ a ∈ as, w.context.frame.isOpen a → Waits q w₀ w.context a
  closed : still = false → ∀ a ∈ as, ¬w'.context.frame.isOpen a
  still : still → n = 0 → ∃ a, w.context.frame.isOpen a

variable {q : Qualifier} {w₀ w w' : World} {a : SlotAddr} {e : Expr} {log : List Freeze}

theorem swept_nil (ht : Tries q w₀ log w) : Swept q w₀ [] w w 0 false where
  tries := ⟨log, ht⟩
  expr? _ := rfl
  isOpen := id
  idle _ := rfl
  waits _ _ ha := nomatch ha
  closed _ _ ha := nomatch ha
  still h := nomatch h

theorem Swept.append {as bs : List SlotAddr} {w'' : World} {n m : Nat} {s t : Bool}
    (hs : Swept q w₀ as w w' n s) (ht : Swept q w₀ bs w' w'' m t) :
    Swept q w₀ (as ++ bs) w w'' (n + m) (s || t) where
  tries := ht.tries
  expr? b := (ht.expr? b).trans (hs.expr? b)
  isOpen := hs.isOpen ∘ ht.isOpen
  idle h := (ht.idle (by omega)).trans (hs.idle (by omega))
  waits h a ha ho := by
    have hw := hs.idle (by omega)
    rcases List.mem_append.mp ha with ha | ha
    · exact hs.waits (by omega) a ha ho
    · exact hw ▸ ht.waits (by omega) a ha (hw ▸ ho)
  closed h a ha := by
    obtain ⟨rfl, rfl⟩ : s = false ∧ t = false := by simpa using h
    rcases List.mem_append.mp ha with ha | ha
    · exact fun ho => hs.closed rfl a ha (ht.isOpen ho)
    · exact ht.closed rfl a ha
  still h hn := by
    rcases Bool.or_eq_true_iff.mp h with h | h
    · exact hs.still h (by omega)
    · exact hs.idle (by omega) ▸ ht.still h (by omega)

theorem isOpen_freeze {x : Item} {b : SlotAddr} (hs : w.context.frame.slot? a = some ⟨e, none⟩) :
    (w.context.frame.freeze a x).isOpen b ↔ b ≠ a ∧ w.context.frame.isOpen b := by
  simp only [Frame.isOpen_eq, Frame.slot?_freeze]
  by_cases hb : b = a
  · simp [hb, hs, Slot.isOpen]
  · simp [hb]

theorem frozen_freeze {x y : Item} {b : SlotAddr} {heap : Heap}
    (hs : w.context.frame.slot? a = some ⟨e, none⟩) :
    (w.freeze a x heap).context.frame.Frozen b y ↔
      (b = a ∧ y = x) ∨ w.context.frame.Frozen b y := by
  simp only [Frame.Frozen, freeze, Frame.slot?_freeze]
  by_cases hb : b = a
  · subst hb
    simp [hs, eq_comm]
  · simp [hb]

theorem trySlot_ok {r : Bool × Bool} (ht : Tries q w₀ log w)
    (he : w.context.frame.expr? a = some e) (h : trySlot q a e w = (.ok r, w')) :
    Swept q w₀ [a] w w' r.1.toNat r.2 := by
  unfold trySlot at h
  split at h
  · rename_i ho
    obtain ⟨e', hs⟩ := Frame.isOpen_iff.mp ho
    obtain rfl : e' = e := by simpa [Frame.expr?, hs] using he
    split at h
    · rename_i x heap hx
      cases h
      exact {
        tries := ⟨_, ht.freeze hs hx⟩
        expr? := fun b => Frame.expr?_freeze
        isOpen := fun hb => ((isOpen_freeze hs).mp hb).2
        idle := fun h => absurd h (by decide)
        waits := fun h => absurd h (by decide)
        closed := fun _ b hb hob => ((isOpen_freeze hs).mp hob).1 (List.mem_singleton.mp hb)
        still := fun h => absurd h (by decide) }
    · rename_i heap hx
      cases h
      refine {
        tries := ⟨_, ht.wait hs hx⟩
        expr? := fun b => rfl
        isOpen := id
        idle := fun _ => rfl
        waits := fun _ b hb _ => ?_
        closed := fun h => absurd h (by decide)
        still := fun _ _ => ⟨a, ho⟩ }
      cases List.mem_singleton.mp hb
      exact ⟨log, w, _, heap, ht, rfl, hs, hx⟩
    · cases h
  · rename_i hn
    cases h
    exact {
      tries := ⟨log, ht⟩
      expr? := fun b => rfl
      isOpen := id
      idle := fun _ => rfl
      waits := fun _ b hb hob => absurd (List.mem_singleton.mp hb ▸ hob) hn
      closed := fun _ b hb => List.mem_singleton.mp hb ▸ hn
      still := fun h => absurd h (by decide) }

theorem trySlot_error {fault : Fault} (ht : Tries q w₀ log w)
    (he : w.context.frame.expr? a = some e) (h : trySlot q a e w = (.error fault, w')) :
    Fails q w₀ fault := by
  unfold trySlot at h
  split at h
  · rename_i ho
    obtain ⟨e', hs⟩ := Frame.isOpen_iff.mp ho
    obtain rfl : e' = e := by simpa [Frame.expr?, hs] using he
    split at h
    · cases h
    · cases h
    · rename_i f heap hx
      cases h
      exact ⟨log, w, a, e', heap, ht, hs, hx⟩
  · cases h

theorem bind_eq_error {σ α β : Type} {m : Job σ α} {f : α → Job σ β} {fault : Fault} {s t : σ} :
    (m >>= f) s = (.error fault, t) ↔
      m s = (.error fault, t) ∨ ∃ b u, m s = (.ok b, u) ∧ f b u = (.error fault, t) := by
  rw [Job.bind_apply]
  match m s with
  | (.ok b, u) => simp
  | (.error g, u) => simp

theorem sweepSlots_ok {id : GroupId} {slots : List (Slot × Nat)} {r : Nat × Bool}
    (ht : Tries q w₀ log w)
    (he : ∀ p ∈ slots, w.context.frame.expr? ⟨id, p.2⟩ = some p.1.expr)
    (h : sweepSlots q id slots w = (.ok r, w')) :
    Swept q w₀ (slots.map fun p => ⟨id, p.2⟩) w w' r.1 r.2 := by
  induction slots generalizing log w r with
  | nil =>
    cases h
    exact swept_nil ht
  | cons p slots ih =>
    obtain ⟨r₁, u, hs, h⟩ := Job.bind_eq_ok.mp h
    obtain ⟨r₂, v, hr, h⟩ := Job.bind_eq_ok.mp h
    cases h
    have h1 := trySlot_ok ht (he p List.mem_cons_self) hs
    obtain ⟨log', ht'⟩ := h1.tries
    have h2 := ih ht' (fun p' hp' => (h1.expr? _).trans (he p' (List.mem_cons_of_mem p hp'))) hr
    exact h1.append h2

theorem sweepSlots_error {id : GroupId} {slots : List (Slot × Nat)} {fault : Fault}
    (ht : Tries q w₀ log w)
    (he : ∀ p ∈ slots, w.context.frame.expr? ⟨id, p.2⟩ = some p.1.expr)
    (h : sweepSlots q id slots w = (.error fault, w')) : Fails q w₀ fault := by
  induction slots generalizing log w with
  | nil => cases h
  | cons p slots ih =>
    rcases bind_eq_error.mp h with hs | ⟨r₁, u, hs, h⟩
    · exact trySlot_error ht (he p List.mem_cons_self) hs
    · have h1 := trySlot_ok ht (he p List.mem_cons_self) hs
      obtain ⟨log', ht'⟩ := h1.tries
      rcases bind_eq_error.mp h with hr | ⟨r₂, v, hr, h⟩
      · exact ih ht' (fun p' hp' => (h1.expr? _).trans (he p' (List.mem_cons_of_mem p hp'))) hr
      · cases h

/-- The slots of the groups are those of the frame. -/
def Shows (f : Frame) (groups : List GroupState) : Prop :=
  ∀ g ∈ groups, ∀ p ∈ g.slots.toList.zipIdx, f.expr? ⟨g.id, p.2⟩ = some p.1.expr

theorem shows_groups {f : Frame} : Shows f f.groups := by
  intro g hg p hp
  have hi : g.slots[p.2]? = some p.1 := by
    rw [List.mem_zipIdx_iff_getElem?] at hp
    simpa using hp
  simp [Frame.expr?, Frame.slot?, Frame.group?_of_mem hg, hi]

theorem Swept.shows {as : List SlotAddr} {n : Nat} {s : Bool} {groups : List GroupState}
    (hs : Swept q w₀ as w w' n s) (hg : Shows w.context.frame groups) :
    Shows w'.context.frame groups :=
  fun g hmem p hp => (hs.expr? _).trans (hg g hmem p hp)

theorem sweepGroups_ok {groups : List GroupState} {r : Progress} (ht : Tries q w₀ log w)
    (hg : Shows w.context.frame groups) (h : sweepGroups q groups w = (.ok r, w')) :
    Swept q w₀ (Frame.addresses groups) w w' r.frozen (!r.unresolved.isEmpty) := by
  induction groups generalizing log w r with
  | nil =>
    cases h
    exact swept_nil ht
  | cons g groups ih =>
    obtain ⟨r₁, u, hs, h⟩ := Job.bind_eq_ok.mp h
    obtain ⟨r₂, v, hr, h⟩ := Job.bind_eq_ok.mp h
    cases h
    have h1 := sweepSlots_ok ht (hg g List.mem_cons_self) hs
    obtain ⟨log', ht'⟩ := h1.tries
    have hg' : Shows w.context.frame groups := fun k hk => hg k (List.mem_cons_of_mem g hk)
    have h2 := h1.append (ih ht' (h1.shows hg') hr)
    have hstill : (!(if r₁.2 then g.id :: r₂.unresolved else r₂.unresolved).isEmpty) =
        (r₁.2 || !r₂.unresolved.isEmpty) := by
      cases r₁.2 <;> simp
    rw [hstill]
    exact h2

theorem sweepGroups_error {groups : List GroupState} {fault : Fault} (ht : Tries q w₀ log w)
    (hg : Shows w.context.frame groups) (h : sweepGroups q groups w = (.error fault, w')) :
    Fails q w₀ fault := by
  induction groups generalizing log w with
  | nil => cases h
  | cons g groups ih =>
    rcases bind_eq_error.mp h with hs | ⟨r₁, u, hs, h⟩
    · exact sweepSlots_error ht (hg g List.mem_cons_self) hs
    · have h1 := sweepSlots_ok ht (hg g List.mem_cons_self) hs
      obtain ⟨log', ht'⟩ := h1.tries
      have hg' : Shows w.context.frame groups := fun k hk => hg k (List.mem_cons_of_mem g hk)
      rcases bind_eq_error.mp h with hr | ⟨r₂, v, hr, h⟩
      · exact ih ht' (h1.shows hg') hr
      · cases h

/-- The end of a run of sweeps: all slots are frozen, or some are open and every open one waits. -/
structure Stalled (q : Qualifier) (w₀ w : World) (complete : Bool) : Prop where
  tries : ∃ log, Tries q w₀ log w
  done : complete → ∀ a, ¬w.context.frame.isOpen a
  left : complete = false → ∃ a, w.context.frame.isOpen a
  waits : ∀ {a}, w.context.frame.isOpen a → Waits q w₀ w.context a

theorem stalled_of_swept {r : Progress}
    (hs : Swept q w₀ (Frame.addresses w.context.frame.groups) w w' r.frozen
      (!r.unresolved.isEmpty)) (hr : r.isComplete ∨ r.frozen = 0) :
    Stalled q w₀ w' r.isComplete := by
  have hmem : ∀ {a}, w.context.frame.isOpen a → a ∈ Frame.addresses w.context.frame.groups := by
    intro a ha
    obtain ⟨e, hs⟩ := Frame.isOpen_iff.mp ha
    exact Frame.mem_addresses hs
  have hdone : r.isComplete → ∀ a, ¬w'.context.frame.isOpen a := by
    intro hc a ha
    have hc' : (!r.unresolved.isEmpty) = false := by
      unfold Progress.isComplete at hc
      rw [hc]
      rfl
    exact hs.closed hc' a (hmem (hs.isOpen ha)) ha
  refine ⟨hs.tries, hdone, fun hc => ?_, fun {a} ha => ?_⟩
  · have hn : r.frozen = 0 := hr.resolve_left (by simp [hc])
    have hstill : (!r.unresolved.isEmpty) = true := by
      unfold Progress.isComplete at hc
      rw [hc]
      rfl
    exact hs.idle hn ▸ hs.still hstill hn
  · rcases hr with hc | hn
    · exact absurd ha (hdone hc a)
    · exact hs.idle hn ▸ hs.waits hn a (hmem (hs.isOpen ha)) (hs.isOpen ha)

theorem sweepFrom_of_ok {n : Nat} {p : Progress} (h : sweepWith q w = (.ok p, w')) :
    sweepFrom q n w =
      if p.isComplete then (.ok ⟨n + 1, true⟩, w')
      else if p.frozen = 0 then (.ok ⟨n + 1, false⟩, w')
      else sweepFrom q (n + 1) w' := by
  rw [sweepFrom]
  split
  · rename_i p' u hp
    cases h.symm.trans hp
    rfl
  · rename_i e u hp
    cases h.symm.trans hp

theorem sweepFrom_of_error {n : Nat} {e : Fault} (h : sweepWith q w = (.error e, w')) :
    sweepFrom q n w = (.error e, w') := by
  rw [sweepFrom]
  split
  · rename_i p' u hp
    cases h.symm.trans hp
  · rename_i e' u hp
    cases h.symm.trans hp
    rfl

theorem sweepFrom_ok {n : Nat} {fix : Fixpoint} (ht : Tries q w₀ log w)
    (h : sweepFrom q n w = (.ok fix, w')) :
    Stalled q w₀ w' fix.complete := by
  fun_induction sweepFrom q n w generalizing log with
  | case1 n w p u hs hc =>
    cases h
    have := stalled_of_swept (sweepGroups_ok ht shows_groups hs) (Or.inl hc)
    rwa [hc] at this
  | case2 n w p u hs hc hn =>
    cases h
    have := stalled_of_swept (sweepGroups_ok ht shows_groups hs) (Or.inr hn)
    rwa [Bool.eq_false_iff.mpr hc] at this
  | case3 n w p u hs hc hn ih =>
    have h1 := sweepGroups_ok ht shows_groups hs
    obtain ⟨log', ht'⟩ := h1.tries
    exact ih ht' h
  | case4 n w f u hs => cases h

theorem sweepFrom_error {n : Nat} {fault : Fault} (ht : Tries q w₀ log w)
    (h : sweepFrom q n w = (.error fault, w')) :
    Fails q w₀ fault := by
  fun_induction sweepFrom q n w generalizing log with
  | case1 n w p u hs hc => cases h
  | case2 n w p u hs hc hn => cases h
  | case3 n w p u hs hc hn ih =>
    have h1 := sweepGroups_ok ht shows_groups hs
    obtain ⟨log', ht'⟩ := h1.tries
    exact ih ht' h
  | case4 n w f u hs =>
    cases h
    exact sweepGroups_error ht shows_groups hs

theorem stallWith_ok {fix : Fixpoint} (h : stallWith q w = (.ok fix, w')) :
    Stalled q w w' fix.complete :=
  sweepFrom_ok .start h

theorem stallWith_error {fault : Fault} (h : stallWith q w = (.error fault, w')) :
    Fails q w fault :=
  sweepFrom_error .start h

end World

end Comptime
