import Comptime.Proofs.Evaluation.Persistence
import Mathlib

/-! How many sweeps are needed. A sweep that is followed by another one froze a slot and left one
open, so there are no more sweeps than slots that were open at the start, one sweep at least. -/
namespace Comptime

namespace Frame

variable {f : Frame} {a : SlotAddr}

theorem openSlots_pos (ho : f.isOpen a) : 0 < f.openSlots := by
  have hcount := openSlots_freeze .undefined ho
  omega

/-- No slot is counted as open just if none is open. -/
theorem openSlots_eq_zero : f.openSlots = 0 ↔ ∀ a, ¬f.isOpen a := by
  constructor
  · intro hzero a ho
    have hpos := openSlots_pos ho
    omega
  · intro hnone
    have hclosed : ∀ g ∈ f.groups, g.slots.toList.countP Slot.isOpen = 0 := by
      intro g hg
      rw [List.countP_eq_zero]
      intro s hs ho
      obtain ⟨i, hi⟩ := List.getElem?_of_mem hs
      refine hnone ⟨g.id, i⟩ ?_
      rw [Array.getElem?_toList] at hi
      simp only [isOpen, group?_of_mem hg, hi]
      exact ho
    unfold openSlots
    generalize f.groups = gs at hclosed
    induction gs with
    | nil => rfl
    | cons g gs ih =>
      rw [List.forall_mem_cons] at hclosed
      rw [List.foldr_cons, ih hclosed.2, hclosed.1]

end Frame

namespace World

/-- No sweep follows one that fails, leaves no slot open or freezes none. -/
def isLast : Except Fault Progress → Bool
  | .ok p => p.isComplete || p.frozen == 0
  | .error _ => true

/-- Sweeping as long as there is a next sweep takes so many of them, and this is what the last one
brings. -/
inductive Rounds (q : Qualifier) : Nat → World → Except Fault Progress × World → Prop
  | last {w : World} : isLast (sweepWith q w).1 = true → Rounds q 1 w (sweepWith q w)
  | next {n : Nat} {w : World} {r : Except Fault Progress × World} :
    isLast (sweepWith q w).1 = false → Rounds q n (sweepWith q w).2 r → Rounds q (n + 1) w r

variable {q : Qualifier} {w u : World} {n k : Nat} {p : Progress}
  {r r' : Except Fault Progress × World}

/-- The report of a sweep is complete just if it leaves no slot open. -/
theorem isComplete_iff (h : sweepWith q w = (.ok p, u)) :
    p.isComplete ↔ u.openSlots = 0 := by
  obtain ⟨-, hopen⟩ := unresolved_sweepWith h
  rw [openSlots, Frame.openSlots_eq_zero, Progress.isComplete, List.isEmpty_iff,
    List.eq_nil_iff_forall_not_mem]
  constructor
  · exact fun hnone a ho => hnone a.group ((hopen a.group).mpr ⟨a.slot, ho⟩)
  · intro hnone id hid
    obtain ⟨i, ho⟩ := (hopen id).mp hid
    exact hnone ⟨id, i⟩ ho

/-- After a sweep that is not the last one fewer slots are open, but not none. -/
theorem openSlots_next (hl : isLast (sweepWith q w).1 = false) :
    0 < (sweepWith q w).2.openSlots ∧ (sweepWith q w).2.openSlots < w.openSlots := by
  match h : sweepWith q w with
  | (.error e, u) =>
    rw [h] at hl
    cases hl
  | (.ok p, u) =>
    simp only [h, isLast, Bool.or_eq_false_iff, beq_eq_false_iff_ne] at hl
    have hcount := openSlots_sweepWith h
    have hleft : u.openSlots ≠ 0 := by
      intro hzero
      have hc := (isComplete_iff h).mpr hzero
      simp [hl.1] at hc
    simp only
    omega

/-- One sweep for each slot that is open at the start, and one if there is none. -/
theorem Rounds.le_openSlots (hr : Rounds q n w r) : n ≤ max 1 w.openSlots := by
  induction hr with
  | last _ => omega
  | next hl _ ih =>
    obtain ⟨hpos, hlt⟩ := openSlots_next hl
    omega

theorem Rounds.unique (hr : Rounds q n w r) (hr' : Rounds q k w r') : n = k ∧ r = r' := by
  induction hr generalizing k with
  | last hl =>
    cases hr' with
    | last _ => exact ⟨rfl, rfl⟩
    | next hl' _ => simp [hl] at hl'
  | next hl _ ih =>
    cases hr' with
    | last hl' => simp [hl] at hl'
    | next _ hr' =>
      obtain ⟨rfl, rfl⟩ := ih hr'
      exact ⟨rfl, rfl⟩

theorem Rounds.exists_last (hr : Rounds q n w r) :
    ∃ v : World, sweepWith q v = r ∧ isLast r.1 := by
  induction hr with
  | @last w hl => exact ⟨w, rfl, hl⟩
  | next _ _ ih => exact ih

/-- The loop sweeps in rounds, on top of the sweeps so far. -/
theorem sweepFrom_rounds (q : Qualifier) (k : Nat) (w : World) :
    ∃ n r, Rounds q n w r ∧
      sweepFrom q k w = ((fun p => ⟨k + n, p.isComplete⟩) <$> r.1, r.2) := by
  fun_induction sweepFrom q k w with
  | case1 k w p u h hc =>
    exact ⟨1, _, .last (by simp [h, isLast, hc]), by simp [h, hc]⟩
  | case2 k w p u h hc hn =>
    exact ⟨1, _, .last (by simp [h, isLast, hn]), by simp [h, hc]⟩
  | case3 k w p u h hc hn ih =>
    obtain ⟨n, r, hr, he⟩ := ih
    refine ⟨n + 1, r, .next (by simp [h, isLast, hc, hn]) (by rwa [h]), ?_⟩
    rw [he, Nat.add_right_comm, Nat.add_assoc]
  | case4 k w e u h =>
    exact ⟨1, _, .last (by simp [h, isLast]), by simp [h]⟩

/-- Resolving is the loop; it is a fault if the loop leaves a slot open. -/
theorem resolveWith_of_stallWith {fix : Fixpoint} (h : stallWith q w = (.ok fix, u)) :
    resolveWith q w =
      (if fix.complete then .ok fix.sweeps
        else .error (.stuck (u.context.frame.firstOpen?.getD "")), u) := by
  unfold resolveWith
  rw [Job.bind_apply, h]
  cases hc : fix.complete <;> simp [hc] <;> rfl

/-- Resolution takes at most as many sweeps as there are open slots, or one if there are none,
however it ends: with all slots frozen, and then it gives the number of its sweeps; because a sweep
froze none of those left; or because a sweep failed. Specializations can be what they like, so this
holds of the loops inside them too. -/
theorem rounds_le_openSlots (q : Qualifier) (w : World) :
    ∃ n r, Rounds q n w r ∧ (∀ k r', Rounds q k w r' → k = n ∧ r' = r) ∧
      n ≤ max 1 w.openSlots ∧
      (∀ p u, r = (.ok p, u) →
        (p.isComplete ↔ u.openSlots = 0) ∧ (p.isComplete ∨ p.frozen = 0) ∧
        stallWith q w = (.ok ⟨n, p.isComplete⟩, u) ∧
        resolveWith q w =
          (if p.isComplete then .ok n
            else .error (.stuck (u.context.frame.firstOpen?.getD "")), u)) ∧
      ∀ e u, r = (.error e, u) →
        stallWith q w = (.error e, u) ∧ resolveWith q w = (.error e, u) := by
  obtain ⟨n, r, hr, he⟩ := sweepFrom_rounds q 0 w
  -- what the loop brings is the report of its last sweep, so that sweep says what is left open
  obtain ⟨v, hlast, hend⟩ := hr.exists_last
  rw [Nat.zero_add] at he
  refine ⟨n, r, hr, fun k r' hr' => hr'.unique hr, hr.le_openSlots, ?_, ?_⟩
  · rintro p u rfl
    refine ⟨isComplete_iff hlast, by simpa [isLast] using hend, he, ?_⟩
    exact resolveWith_of_stallWith he
  · rintro e u rfl
    refine ⟨he, ?_⟩
    unfold resolveWith
    rw [Job.bind_apply, stallWith, he]
    rfl

/-- Each slot but the last reads the next one, so a sweep freezes one slot only. -/
def ladder : World where
  context.frame.groups := [⟨0, "g", #[⟨.slot ⟨0, 1⟩, none⟩, ⟨.slot ⟨0, 2⟩, none⟩,
    ⟨.lit (.str "end"), none⟩]⟩]

/-- As many sweeps as there are slots may indeed be needed. -/
theorem rounds_le_openSlots_ladder :
    ladder.openSlots = 3 ∧ (World.resolve ladder).1 = .ok 3 ∧
      ∃ r, Rounds (qualifyWithin depthLimit) 3 ladder r ∧ r.2.openSlots = 0 := by
  have hopen : ladder.openSlots = 3 := by decide
  have hresolve : (World.resolve ladder).1 = .ok 3 := by cbv
  obtain ⟨n, ⟨o, u⟩, hr, -, -, hok, herror⟩ :=
    rounds_le_openSlots (qualifyWithin depthLimit) ladder
  refine ⟨hopen, hresolve, ?_⟩
  cases o with
  | error e =>
    have h := congrArg Prod.fst (herror e u rfl).2
    rw [← World.resolve, hresolve] at h
    cases h
  | ok p =>
    obtain ⟨hc, -, -, h⟩ := hok p u rfl
    have h := congrArg Prod.fst h
    rw [← World.resolve, hresolve] at h
    split at h
    · cases h
      exact ⟨_, hr, hc.mp ‹_›⟩
    · cases h

end World

end Comptime
