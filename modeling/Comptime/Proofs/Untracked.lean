import Comptime.Proofs.Tracking
import Mathlib.Logic.Relation

/-! Objects without a binding are written inside the object that refers to them. There is only one
such object, so nothing that can be reached is written inside itself, and no nesting is deeper than
the heap is large. -/
namespace Comptime

variable {heap : Heap} {start asked roots done : List Handle} {t : Tracker} {g h k : Handle}

theorem Heap.lt_of_isInlinable (hi : heap.isInlinable h) : h < heap.size := by
  unfold Heap.isInlinable at hi
  cases ho : heap.get? h with
  | none => simp [ho] at hi
  | some o => exact Heap.get?_lt ho

namespace Tracker

/-- The second object is written inside the first. -/
def Nests (heap : Heap) (t : Tracker) (h k : Handle) : Prop :=
  k ∈ heap.refs h ∧ t.isTracked k = false

theorem reach_of_nests (hr : heap.Reach start h)
    (hn : Relation.ReflTransGen (Nests heap t) h k) : heap.Reach start k := by
  induction hn with
  | refl => exact hr
  | tail _ hk ih => exact .step ih hk.1

section Once

variable (hl : Ledger heap t asked roots done)
include hl

theorem Ledger.not_mem_asked (hn : t.isTracked k = false) : k ∉ asked := by
  intro hk
  have htracked : t.isTracked k := isTracked_iff.mpr ((hl.accounts.tracked k).mpr (Or.inl hk))
  simp [hn] at htracked

/-- An object that is not tracked has fewer references than it takes. -/
theorem Ledger.count_lt (hn : t.isTracked k = false) :
    (roots ++ done.flatMap heap.refs).count k < heap.threshold k := by
  refine Nat.lt_of_not_le fun hle => ?_
  have htracked : t.isTracked k := isTracked_iff.mpr ((hl.accounts.tracked k).mpr (Or.inr hle))
  simp [hn] at htracked

theorem Ledger.count_le_one (hn : t.isTracked k = false) :
    (roots ++ done.flatMap heap.refs).count k ≤ 1 := by
  have hlt := hl.count_lt hn
  unfold Heap.threshold at hlt
  split at hlt <;> omega

variable (hq : t.queue.toList = [])
include hq

/-- What can be reached and is not tracked can be written in place. -/
theorem Ledger.isInlinable (hr : heap.Reach (asked ++ roots) k) (hn : t.isTracked k = false) :
    heap.isInlinable k := by
  have hmem := ((hl.reach_iff hq).mp hr).resolve_left (hl.not_mem_asked hn)
  have hpos := List.count_pos_iff.mpr hmem
  have hlt := hl.count_lt hn
  unfold Heap.threshold at hlt
  split at hlt
  · assumption
  · omega

/-- What is tracked can be reached. -/
theorem Ledger.reach_of_isTracked (ht : t.isTracked k) : heap.Reach (asked ++ roots) k :=
  (hl.reach_iff hq).mpr (hl.accounts.mem_known (isTracked_iff.mp ht))

theorem Ledger.mem_done (hg : heap.Reach (asked ++ roots) g) (hk : k ∈ heap.refs g) : g ∈ done :=
  (hl.mem_done_iff hq).mpr ⟨hg, Heap.lt_of_mem_refs hk⟩

/-- What is written inside another object does not come from outside. -/
theorem Ledger.not_mem_start (hg : heap.Reach (asked ++ roots) g) (hk : Nests heap t g k) :
    k ∉ asked ++ roots := by
  intro hs
  have hroots : k ∈ roots := (List.mem_append.mp hs).resolve_left (hl.not_mem_asked hk.2)
  have hdone : k ∈ done.flatMap heap.refs :=
    List.mem_flatMap.mpr ⟨g, hl.mem_done hq hg hk.1, hk.1⟩
  have hcount := hl.count_le_one hk.2
  rw [List.count_append] at hcount
  have hpos := List.count_pos_iff.mpr hroots
  have hpos' := List.count_pos_iff.mpr hdone
  omega

/-- It is written inside one object only. -/
theorem Ledger.nests_unique {g' : Handle} (hg : heap.Reach (asked ++ roots) g)
    (hg' : heap.Reach (asked ++ roots) g') (hk : Nests heap t g k) (hk' : Nests heap t g' k) :
    g = g' := by
  by_contra hne
  have hcount := hl.count_le_one hk.2
  rw [hl.count_eq (s := done.toFinset) fun _ => List.mem_toFinset] at hcount
  have hsum := Finset.add_le_sum (f := fun g => (heap.refs g).count k) (s := done.toFinset)
    (fun _ _ => Nat.zero_le _) (List.mem_toFinset.mpr (hl.mem_done hq hg hk.1))
    (List.mem_toFinset.mpr (hl.mem_done hq hg' hk'.1)) hne
  have hpos := List.count_pos_iff.mpr hk.1
  have hpos' := List.count_pos_iff.mpr hk'.1
  omega

/-- Nothing that can be reached is written inside itself. -/
theorem Ledger.not_nests_self (hr : heap.Reach (asked ++ roots) h) :
    ¬Relation.TransGen (Nests heap t) h h := by
  induction hr with
  | start hs =>
    intro hcycle
    obtain ⟨g, hg, hh⟩ := Relation.TransGen.tail'_iff.mp hcycle
    exact hl.not_mem_start hq (reach_of_nests (.start hs) hg) hh hs
  | @step g h hr hh ih =>
    intro hcycle
    obtain ⟨g', hg', hh'⟩ := Relation.TransGen.tail'_iff.mp hcycle
    have hreach := reach_of_nests (.step hr hh) hg'
    -- the cycle has to pass through the object by which it was reached
    have he : g = g' := hl.nests_unique hq hr hreach ⟨hh, hh'.2⟩ hh'
    subst he
    exact ih (.head' hh' hg')

end Once

section Height

/-- Along a step out of a place that is not on a cycle there is less left to reach. -/
theorem card_reach_lt {r : Handle → Handle → Prop} {size : Nat}
    [DecidableRel (Relation.ReflTransGen r)] (hn : r h k) (hlt : h < size)
    (hh : ¬Relation.TransGen r h h) :
    Finset.card {j ∈ Finset.range size | Relation.ReflTransGen r k j} <
      Finset.card {j ∈ Finset.range size | Relation.ReflTransGen r h j} := by
  refine Finset.card_lt_card (Finset.ssubset_iff_of_subset ?_ |>.mpr ⟨h, ?_, ?_⟩)
  · intro j hj
    obtain ⟨hj, hreach⟩ := Finset.mem_filter.mp hj
    exact Finset.mem_filter.mpr ⟨hj, .head hn hreach⟩
  · exact Finset.mem_filter.mpr ⟨Finset.mem_range.mpr hlt, .refl⟩
  · exact fun hm => hh (.head' hn (Finset.mem_filter.mp hm).2)

open Classical in
/-- How many objects are written with an object, itself and those inside it at any depth. -/
noncomputable def height (heap : Heap) (t : Tracker) (h : Handle) : Nat :=
  Finset.card {k ∈ Finset.range heap.size | Relation.ReflTransGen (Nests heap t) h k}

theorem height_le : height heap t h ≤ heap.size := by
  classical
  unfold height
  exact (Finset.card_filter_le _ _).trans_eq (Finset.card_range _)

theorem height_lt (hn : Nests heap t h k) (hh : ¬Relation.TransGen (Nests heap t) h h) :
    height heap t k < height heap t h := by
  classical
  exact card_reach_lt hn (Heap.lt_of_mem_refs hn.1) hh

end Height

end Tracker

end Comptime
