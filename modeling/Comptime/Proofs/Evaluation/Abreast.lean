import Comptime.Proofs.Evaluation.Tries

/-! Two runs of sweeps abreast. If they do alike at each slot that they try, then they do alike at
every sweep, and come to the same end. -/
namespace Comptime.World

variable {cutOff : Prop} {E : Fault → Fault → Prop} {W : World → World → Prop} {α β : Type}
  {q q' : Qualifier} {w w' : World}

variable (cutOff E W) in
/-- The jobs give the same result or both fail, in any two worlds related by `W`, which they keep
so; unless the first is cut off because specializations nest too deep. The second may then do as it
likes. -/
def Abreast (m m' : Job World α) : Prop :=
  ∀ ⦃w w'⦄, W w w' →
    (cutOff ∧ ∃ u, m w = (.error .tooDeep, u)) ∨
      (∃ a u u', m w = (.ok a, u) ∧ m' w' = (.ok a, u') ∧ W u u') ∨
      ∃ e e' u u', m w = (.error e, u) ∧ m' w' = (.error e', u') ∧ W u u' ∧ E e e'

section Jobs

variable {m m' : Job World α} {f f' : α → Job World β}

theorem abreast_pure (a : α) : Abreast cutOff E W (pure a) (pure a) :=
  fun w w' hw => Or.inr (Or.inl ⟨a, w, w', rfl, rfl, hw⟩)

theorem Abreast.bind (h : Abreast cutOff E W m m') (hf : ∀ a, Abreast cutOff E W (f a) (f' a)) :
    Abreast cutOff E W (m >>= f) (m' >>= f') := by
  intro w w' hw
  rw [Job.bind_apply, Job.bind_apply]
  obtain ⟨hcut, u, hm⟩ | ⟨a, u, u', hm, hm', hu⟩ | ⟨e, e', u, u', hm, hm', hu, he⟩ := h hw
  · rw [hm]
    exact Or.inl ⟨hcut, u, rfl⟩
  · rw [hm, hm']
    exact hf a hu
  · rw [hm, hm']
    exact Or.inr (Or.inr ⟨e, e', u, u', rfl, rfl, hu, he⟩)

end Jobs

section Sweeps

variable (cutOff E W q q') in
/-- The groups have as many slots, and trying the ones is abreast of trying the others. -/
structure Matches (g g' : GroupState) : Prop where
  id : g'.id = g.id
  size : g'.slots.size = g.slots.size
  slot : ∀ {i s s'}, g.slots[i]? = some s → g'.slots[i]? = some s' →
    Abreast cutOff E W (trySlot q ⟨g.id, i⟩ s.expr) (trySlot q' ⟨g.id, i⟩ s'.expr)

theorem Matches.sweepSlots {g g' : GroupState} (hg : Matches cutOff E W q q' g g') :
    Abreast cutOff E W (sweepSlots q g.id g.slots.toList.zipIdx)
      (sweepSlots q' g'.id g'.slots.toList.zipIdx) := by
  rw [hg.id]
  -- Slots of the same index go together, from whatever index on.
  have hall : ∀ (slots slots' : List Slot) (n : Nat), slots'.length = slots.length →
      (∀ {i s s'}, slots[i]? = some s → slots'[i]? = some s' →
        Abreast cutOff E W (trySlot q ⟨g.id, n + i⟩ s.expr) (trySlot q' ⟨g.id, n + i⟩ s'.expr)) →
      Abreast cutOff E W (World.sweepSlots q g.id (slots.zipIdx n))
        (World.sweepSlots q' g.id (slots'.zipIdx n)) := by
    intro slots
    induction slots with
    | nil =>
      intro slots' n hlen _
      rw [List.length_eq_zero_iff.mp hlen]
      exact abreast_pure _
    | cons s slots ih =>
      intro slots' n hlen hslot
      match slots' with
      | [] => cases hlen
      | s' :: slots' =>
        rw [List.zipIdx_cons, List.zipIdx_cons]
        refine Abreast.bind (hslot (i := 0) rfl rfl) fun r => ?_
        refine (ih slots' (n + 1) (Nat.succ.inj hlen) fun {i t t'} ht ht' => ?_).bind
          fun r' => abreast_pure _
        have h := hslot (i := i + 1) ht ht'
        rwa [show n + (i + 1) = n + 1 + i by omega] at h
  refine hall _ _ 0 (by simpa using hg.size) fun {i s s'} hs hs' => ?_
  rw [Nat.zero_add]
  exact hg.slot (by simpa using hs) (by simpa using hs')

theorem abreast_sweepGroups {groups groups' : List GroupState}
    (hg : List.Forall₂ (Matches cutOff E W q q') groups groups') :
    Abreast cutOff E W (sweepGroups q groups) (sweepGroups q' groups') := by
  induction hg with
  | nil => exact abreast_pure _
  | @cons g g' groups groups' hg _ ih =>
    refine hg.sweepSlots.bind fun r => ih.bind fun rest => ?_
    rw [hg.id]
    exact abreast_pure _

theorem abreast_sweepWith
    (hg : ∀ {w w'}, W w w' →
      List.Forall₂ (Matches cutOff E W q q') w.context.frame.groups w'.context.frame.groups) :
    Abreast cutOff E W (sweepWith q) (sweepWith q') :=
  fun _ _ hw => abreast_sweepGroups (hg hw) hw

variable (hs : Abreast cutOff E W (sweepWith q) (sweepWith q'))
include hs

theorem abreast_sweepFrom (n : Nat) : Abreast cutOff E W (sweepFrom q n) (sweepFrom q' n) := by
  intro w w' hw
  have hsweep := hs hw
  fun_induction World.sweepFrom q n w generalizing w' with
  | case1 n w p u h hp =>
    rw [h] at hsweep
    obtain ⟨-, -, ⟨⟩⟩ | ⟨p, u, u', ⟨⟩, hu', hw⟩ | ⟨e, e', u, u', ⟨⟩, -⟩ := hsweep
    rw [sweepFrom_of_ok hu', if_pos hp]
    exact Or.inr (Or.inl ⟨_, _, _, rfl, rfl, hw⟩)
  | case2 n w p u h hp hn =>
    rw [h] at hsweep
    obtain ⟨-, -, ⟨⟩⟩ | ⟨p, u, u', ⟨⟩, hu', hw⟩ | ⟨e, e', u, u', ⟨⟩, -⟩ := hsweep
    rw [sweepFrom_of_ok hu', if_neg hp, if_pos hn]
    exact Or.inr (Or.inl ⟨_, _, _, rfl, rfl, hw⟩)
  | case3 n w p u h hp hn ih =>
    rw [h] at hsweep
    obtain ⟨-, -, ⟨⟩⟩ | ⟨p, u, u', ⟨⟩, hu', hw⟩ | ⟨e, e', u, u', ⟨⟩, -⟩ := hsweep
    rw [sweepFrom_of_ok hu', if_neg hp, if_neg hn]
    exact ih hw (hs hw)
  | case4 n w e u h =>
    rw [h] at hsweep
    obtain ⟨hcut, u, ⟨⟩⟩ | ⟨p, u, u', ⟨⟩, -⟩ | ⟨e, e', u, u', ⟨⟩, hu', hw, he⟩ := hsweep
    · exact Or.inl ⟨hcut, _, rfl⟩
    · rw [sweepFrom_of_error hu']
      exact Or.inr (Or.inr ⟨_, _, _, _, rfl, rfl, hw, he⟩)

theorem abreast_resolveWith
    (hstuck : ∀ {w w'}, W w w' → E (.stuck (w.context.frame.firstOpen?.getD ""))
      (.stuck (w'.context.frame.firstOpen?.getD ""))) :
    Abreast cutOff E W (resolveWith q) (resolveWith q') := by
  refine (abreast_sweepFrom hs 0).bind fun fix => ?_
  by_cases hc : fix.complete
  · simp only [if_pos hc]
    exact abreast_pure _
  · simp only [if_neg hc]
    intro w w' hw
    exact Or.inr (Or.inr ⟨_, _, w, w', rfl, rfl, hw, hstuck hw⟩)

end Sweeps

end Comptime.World
