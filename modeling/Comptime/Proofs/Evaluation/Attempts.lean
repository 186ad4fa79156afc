import Comptime.Proofs.Evaluation.Tries

/-! Sweeps that may fail, as runs of single attempts. Whatever one attempt at an open slot keeps,
any number of sweeps keeps, also when some of them stop at a fault. -/
namespace Comptime

theorem Job.snd_bind {σ α β : Type} {m : Job σ α} {f : α → Job σ β} {P : σ → Prop} {s : σ}
    (hm : P (m s).2) (hf : ∀ a u, m s = (.ok a, u) → P (f a u).2) : P ((m >>= f) s).2 := by
  rw [Job.bind_apply]
  match h : m s with
  | (.ok a, u) => exact hf a u h
  | (.error e, u) =>
    rw [h] at hm
    exact hm

namespace World

/-- The worlds reached from `w₀` by attempts at open slots, however these end. -/
inductive Attempts (q : Qualifier) (w₀ : World) : World → Prop
  | start : Attempts q w₀ w₀
  | next {w : World} {a : SlotAddr} {e : Expr} (ht : Attempts q w₀ w)
    (hs : w.context.frame.slot? a = some ⟨e, none⟩) : Attempts q w₀ (trySlot q a e w).2

variable {q : Qualifier} {w₀ w w' : World} {a : SlotAddr} {e : Expr}

/-- An attempt at an open slot freezes it or leaves the context alone. -/
theorem trySlot_cases (hs : w.context.frame.slot? a = some ⟨e, none⟩) :
    (∃ x heap, e.evalWith q w.chain w.heap = (.resolved x, heap) ∧
      (trySlot q a e w).2 = w.freeze a x heap) ∨
    ∃ heap, (e.evalWith q w.chain w.heap).2 = heap ∧ (trySlot q a e w).2 = { w with heap } := by
  have ho : w.context.frame.isOpen a := Frame.isOpen_iff.mpr ⟨e, hs⟩
  unfold trySlot
  rw [if_pos ho]
  match h : e.evalWith q w.chain w.heap with
  | (.resolved x, heap) => exact Or.inl ⟨x, heap, rfl, rfl⟩
  | (.pending, heap) => exact Or.inr ⟨heap, rfl, rfl⟩
  | (.failed f, heap) => exact Or.inr ⟨heap, rfl, rfl⟩

theorem Attempts.expr? (ht : Attempts q w₀ w) (b : SlotAddr) :
    w.context.frame.expr? b = w₀.context.frame.expr? b := by
  induction ht with
  | start => rfl
  | next ht hs ih =>
    obtain ⟨x, heap, -, h⟩ | ⟨heap, -, h⟩ := trySlot_cases (q := q) hs <;> rw [h]
    · exact Frame.expr?_freeze.trans ih
    · exact ih

theorem Attempts.vars (ht : Attempts q w₀ w) :
    w.context.frame.vars = w₀.context.frame.vars := by
  induction ht with
  | start => rfl
  | next ht hs ih =>
    obtain ⟨x, heap, -, h⟩ | ⟨heap, -, h⟩ := trySlot_cases (q := q) hs <;> rw [h] <;> exact ih

theorem Attempts.outer (ht : Attempts q w₀ w) : w.context.outer = w₀.context.outer := by
  induction ht with
  | start => rfl
  | next ht hs ih =>
    obtain ⟨x, heap, -, h⟩ | ⟨heap, -, h⟩ := trySlot_cases (q := q) hs <;> rw [h] <;> exact ih

/-- A frozen slot keeps its item. -/
theorem Attempts.frozen {x : Item} (ht : Attempts q w₀ w) (hx : w₀.context.frame.Frozen a x) :
    w.context.frame.Frozen a x := by
  induction ht with
  | start => exact hx
  | next ht hs ih =>
    obtain ⟨y, heap, -, h⟩ | ⟨heap, -, h⟩ := trySlot_cases (q := q) hs <;> rw [h]
    · exact (frozen_freeze hs).mpr (Or.inr ih)
    · exact ih

theorem Attempts.trans (ht : Attempts q w₀ w) (ht' : Attempts q w w') : Attempts q w₀ w' := by
  induction ht' with
  | start => exact ht
  | next _ hs ih => exact ih.next hs

/-- Tries that do not fail are attempts. -/
theorem Tries.attempts {log : List Freeze} (ht : Tries q w₀ log w) : Attempts q w₀ w := by
  induction ht with
  | start => exact .start
  | @freeze log w a e x heap ht hs he ih =>
    have h := ih.next hs
    rwa [trySlot, if_pos (Frame.isOpen_iff.mpr ⟨e, hs⟩), he] at h
  | @wait log w a e heap ht hs he ih =>
    have h := ih.next hs
    rwa [trySlot, if_pos (Frame.isOpen_iff.mpr ⟨e, hs⟩), he] at h

theorem Attempts.trySlot (ht : Attempts q w₀ w) (he : w₀.context.frame.expr? a = some e) :
    Attempts q w₀ (trySlot q a e w).2 := by
  by_cases ho : w.context.frame.isOpen a
  · obtain ⟨e', hs⟩ := Frame.isOpen_iff.mp ho
    have he' : w.context.frame.expr? a = some e := (ht.expr? a).trans he
    obtain rfl : e' = e := by simpa [Frame.expr?, hs] using he'
    exact ht.next hs
  · rw [World.trySlot, if_neg ho]
    exact ht

theorem Attempts.sweepSlots {id : GroupId} {slots : List (Slot × Nat)} (ht : Attempts q w₀ w)
    (he : ∀ p ∈ slots, w₀.context.frame.expr? ⟨id, p.2⟩ = some p.1.expr) :
    Attempts q w₀ (sweepSlots q id slots w).2 := by
  induction slots generalizing w with
  | nil => exact ht
  | cons p slots ih =>
    have h1 := ht.trySlot (he p List.mem_cons_self)
    refine Job.snd_bind h1 fun r u hr => Job.snd_bind ?_ fun _ _ hr' => ?_
    all_goals
      rw [hr] at h1
      have h2 := ih h1 fun p' hp' => he p' (List.mem_cons_of_mem p hp')
    · exact h2
    · rw [hr'] at h2
      exact h2

theorem Attempts.sweepGroups {groups : List GroupState} (ht : Attempts q w₀ w)
    (hg : Shows w₀.context.frame groups) : Attempts q w₀ (sweepGroups q groups w).2 := by
  induction groups generalizing w with
  | nil => exact ht
  | cons g groups ih =>
    have h1 := ht.sweepSlots (hg g List.mem_cons_self)
    have hg' : Shows w₀.context.frame groups := fun k hk => hg k (List.mem_cons_of_mem g hk)
    refine Job.snd_bind h1 fun r u hr => Job.snd_bind ?_ fun _ _ hr' => ?_
    all_goals
      rw [hr] at h1
      have h2 := ih h1 hg'
    · exact h2
    · rw [hr'] at h2
      exact h2

/-- A sweep is made of attempts, also one that fails. -/
theorem Attempts.sweep (ht : Attempts q w₀ w) :
    Attempts q w₀ (sweepWith q w).2 := by
  refine ht.sweepGroups fun g hg p hp => ?_
  rw [← ht.expr?]
  exact shows_groups g hg p hp

theorem Attempts.sweepFrom {n : Nat} (ht : Attempts q w₀ w) :
    Attempts q w₀ (sweepFrom q n w).2 := by
  fun_induction World.sweepFrom q n w with
  | case1 n w p u hs hc =>
    have h := ht.sweep
    rwa [hs] at h
  | case2 n w p u hs hc hn =>
    have h := ht.sweep
    rwa [hs] at h
  | case3 n w p u hs hc hn ih =>
    have h := ht.sweep
    rw [hs] at h
    exact ih h
  | case4 n w f u hs =>
    have h := ht.sweep
    rwa [hs] at h

theorem Attempts.resolve (ht : Attempts q w₀ w) :
    Attempts q w₀ (resolveWith q w).2 := by
  have h : Attempts q w₀ (stallWith q w).2 := ht.sweepFrom
  refine Job.snd_bind h fun fix u hu => ?_
  rw [hu] at h
  by_cases hc : fix.complete
  · rw [if_pos hc]
    exact h
  · rw [if_neg hc]
    exact h

end World

/-- The world in which the slots of a unit are resolved, -/
def Draft.start (d : Draft) : World := ⟨{ frame := d.frame }, d.heap⟩

/-- and what it is after `n` sweeps. One that fails counts as well, and the next one goes on from
where it stopped. -/
def Draft.swept (d : Draft) : Nat → World
  | 0 => d.start
  | n + 1 => (World.sweep (d.swept n)).2

theorem Draft.attempts_swept (d : Draft) (n : Nat) :
    World.Attempts (qualifyWithin depthLimit) d.start (d.swept n) := by
  induction n with
  | zero => exact .start
  | succ n ih => exact ih.sweep

end Comptime
