import Comptime.Proofs.Settlement

/-! The order of discovery. The walk keeps a stack on which a handle may stand many times over, and
finds out only when it takes one whether it was found before. It finds the same objects in the same
order as the recursive search, which marks an object and then searches what it refers to, from left
to right: the stack holds the searches that are still to be made. -/
namespace Comptime.Heap

variable {heap : Heap} {found found' stack hs ks : List Handle} {seen : HandleSet} {h : Handle}
  {roots : List Item} {m n : Nat}

/-- The recursive search of some handles, one after the other. One that was found before is passed
over. Any other is marked, and what it refers to is searched before the next. The first list is what
was found before the search, the last what was found after it, in the order of the marks. -/
inductive Search (heap : Heap) : List Handle → List Handle → List Handle → Prop
  | done {found : List Handle} : Search heap found [] found
  | pass {found found' hs : List Handle} {h : Handle} :
    h ∈ found → Search heap found hs found' → Search heap found (h :: hs) found'
  | enter {found below found' hs : List Handle} {h : Handle} :
    h ∉ found → Search heap (found ++ [h]) (heap.refs h) below → Search heap below hs found' →
      Search heap found (h :: hs) found'

/-- A walk on its way: what it found, in order, and the handles it still has to take. -/
structure Walk where
  found : List Handle
  stack : List Handle

/-- One turn of a walk takes one handle off the stack. -/
inductive Turn (heap : Heap) : Walk → Walk → Prop
  | pass {found stack : List Handle} {h : Handle} :
    h ∈ found → Turn heap ⟨found, h :: stack⟩ ⟨found, stack⟩
  | enter {found stack : List Handle} {h : Handle} :
    h ∉ found → Turn heap ⟨found, h :: stack⟩ ⟨found ++ [h], heap.refs h ++ stack⟩

inductive Turns (heap : Heap) : Nat → Walk → Walk → Prop
  | none {w : Walk} : Turns heap 0 w w
  | next {n : Nat} {u v w : Walk} : Turn heap u v → Turns heap n v w → Turns heap (n + 1) u w

section Turns

variable {u v w : Walk}

theorem Turn.unique (hv : heap.Turn u v) (hw : heap.Turn u w) : v = w := by
  cases hv with
  | pass hmem =>
    cases hw with
    | pass _ => rfl
    | enter hn => exact absurd hmem hn
  | enter hn =>
    cases hw with
    | pass hmem => exact absurd hmem hn
    | enter _ => rfl

theorem Turns.trans (huv : heap.Turns m u v) (hvw : heap.Turns n v w) :
    heap.Turns (m + n) u w := by
  induction huv with
  | none => rwa [Nat.zero_add]
  | next ht _ ih =>
    rw [Nat.add_right_comm]
    exact .next ht (ih hvw)

/-- A walk that comes to its end has no longer run, and only this one of the same length. -/
theorem Turns.le_of_finished (hu : heap.Turns n u ⟨found, []⟩) (hw : heap.Turns m u w) :
    m ≤ n ∧ (m = n → w = ⟨found, []⟩) := by
  induction hw generalizing n with
  | none =>
    refine ⟨Nat.zero_le n, ?_⟩
    rintro rfl
    cases hu
    rfl
  | next ht _ ih =>
    cases hu with
    | none => cases ht
    | next ht' hu =>
      obtain rfl := ht.unique ht'
      obtain ⟨hle, heq⟩ := ih hu
      exact ⟨Nat.succ_le_succ hle, fun he => heq (Nat.succ.inj he)⟩

theorem Turns.found_unique (hu : heap.Turns n u ⟨found, []⟩) (hu' : heap.Turns m u ⟨found', []⟩) :
    found' = found := by
  obtain ⟨hle, heq⟩ := hu.le_of_finished hu'
  have hge := (hu'.le_of_finished hu).1
  exact congrArg Walk.found (heq (Nat.le_antisymm hle hge))

end Turns

section Recursion

/-- A search of two lists is a search of the one and then of the other. -/
theorem Search.split (hsearch : heap.Search found (hs ++ ks) found') :
    ∃ between, heap.Search found hs between ∧ heap.Search between ks found' := by
  induction hs generalizing found with
  | nil => exact ⟨found, .done, hsearch⟩
  | cons h hs ih =>
    cases hsearch with
    | pass hmem hrest =>
      obtain ⟨between, hl, hr⟩ := ih hrest
      exact ⟨between, .pass hmem hl, hr⟩
    | enter hn hbelow hrest =>
      obtain ⟨between, hl, hr⟩ := ih hrest
      exact ⟨between, .enter hn hbelow hl, hr⟩

/-- A search is made by the turns that take its handles off the stack, whatever stands below. -/
theorem Search.turns (hsearch : heap.Search found hs found') (stack : List Handle) :
    ∃ n, heap.Turns n ⟨found, hs ++ stack⟩ ⟨found', stack⟩ := by
  induction hsearch generalizing stack with
  | done => exact ⟨0, .none⟩
  | pass hmem _ ih =>
    obtain ⟨n, hn⟩ := ih stack
    exact ⟨n + 1, .next (.pass hmem) hn⟩
  | enter hnew _ _ ihbelow ihrest =>
    obtain ⟨m, hm⟩ := ihbelow (_ ++ stack)
    obtain ⟨n, hn⟩ := ihrest stack
    exact ⟨m + n + 1, .next (.enter hnew) (hm.trans hn)⟩

/-- The turns of a walk up to its end make a search of its stack. -/
theorem Turns.search {u : Walk} (hturns : heap.Turns n u ⟨found', []⟩) :
    heap.Search u.found u.stack found' := by
  generalize hw : Walk.mk found' [] = w at hturns
  induction hturns with
  | none =>
    subst hw
    exact .done
  | next ht _ ih =>
    have hsearch := ih hw
    cases ht with
    | pass hmem => exact .pass hmem hsearch
    | enter hn =>
      -- what was put on top is searched before what stood on the stack
      obtain ⟨below, hbelow, hrest⟩ := hsearch.split
      exact .enter hn hbelow hrest

theorem search_iff_turns :
    heap.Search found hs found' ↔ ∃ n, heap.Turns n ⟨found, hs⟩ ⟨found', []⟩ := by
  constructor
  · intro hsearch
    simpa using hsearch.turns []
  · rintro ⟨n, hn⟩
    exact hn.search

end Recursion

section Ending

/-- The turns of a walk that finds these objects: one for each handle that stands on the stack at
the start or is put there. -/
def turnsFor (heap : Heap) (stack found : List Handle) : Nat :=
  (stack ++ found.flatMap heap.refs).length

theorem turnsFor_pass :
    heap.turnsFor (h :: stack) found = heap.turnsFor stack found + 1 := by
  rw [turnsFor, List.cons_append, List.length_cons, turnsFor]

theorem turnsFor_enter :
    heap.turnsFor (h :: stack) (h :: found) = heap.turnsFor (heap.refs h ++ stack) found + 1 := by
  simp only [turnsFor, List.flatMap_cons, List.length_append, List.length_cons]
  omega

/-- Without dangling handles a walk comes to its end. What was seen is what was found, so the bound
on the handles, which the walk checks, is never what decides. -/
theorem turns_walk (hc : heap.Closed) (seen : HandleSet) (stack : List Handle) :
    (∀ h ∈ stack, h < heap.size) → ∀ found, (∀ h, h ∈ seen ↔ h ∈ found) →
      heap.Turns (heap.turnsFor stack (heap.walk seen stack)) ⟨found, stack⟩
        ⟨found ++ heap.walk seen stack, []⟩ := by
  fun_induction Heap.walk heap seen stack with
  | case1 seen =>
    intro _ found _
    rw [List.append_nil]
    exact .none
  | case2 seen h stack hnew ih =>
    intro hlt found hseen
    have hstack : ∀ k ∈ heap.refs h ++ stack, k < heap.size := by
      intro k hk
      rcases List.mem_append.mp hk with hk | hk
      · exact hc.lt hk
      · exact hlt k (List.mem_cons_of_mem h hk)
    have hmarked : ∀ k, k ∈ seen.insert h ↔ k ∈ found ++ [h] := by
      intro k
      rw [mem_insert_seen, hseen, List.mem_append, List.mem_singleton, or_comm]
    have hrest := ih hstack (found ++ [h]) hmarked
    rw [turnsFor_enter]
    rw [List.append_assoc, List.singleton_append] at hrest
    exact .next (.enter fun hmem => hnew.2 ((hseen h).mpr hmem)) hrest
  | case3 seen h stack hold ih =>
    intro hlt found hseen
    rw [List.forall_mem_cons] at hlt
    have hmem : h ∈ found := by
      by_contra hn
      exact hold ⟨hlt.1, fun hs => hn ((hseen h).mp hs)⟩
    rw [turnsFor_pass]
    exact .next (.pass hmem) (ih hlt.2 found hseen)

/-- The walk from the roots and its end. -/
theorem turns_reachable (hc : heap.Closed) (hroots : ∀ h ∈ refsOf roots, h < heap.size) :
    heap.Turns (heap.turnsFor (refsOf roots) (heap.reachable roots)) ⟨[], refsOf roots⟩
      ⟨heap.reachable roots, []⟩ :=
  turns_walk hc {} (refsOf roots) hroots [] (by simp)

/-- Without dangling handles the walk finds all that can be reached. -/
theorem Closed.mem_reachable_iff (hc : heap.Closed) (hroots : ∀ h ∈ refsOf roots, h < heap.size) :
    h ∈ heap.reachable roots ↔ heap.Reach (refsOf roots) h := by
  constructor
  · intro hmem
    have hlt := ((heap.nodup_walk {} (refsOf roots)).2 h hmem).1
    exact (Heap.mem_reachable_iff.mp ⟨hmem, hlt⟩).1
  · intro hr
    exact (Heap.mem_reachable_iff.mpr ⟨hr, hr.lt hc hroots⟩).1

end Ending

/-- What can be reached is found, each object once, in the order in which the recursive search of
the roots marks it. The walk comes to its end: it takes each handle that is put on its stack, and no
walk from the roots takes more turns. -/
theorem reachable_depthFirst (hc : heap.Closed) (hroots : ∀ h ∈ refsOf roots, h < heap.size) :
    (∀ n w, heap.Turns n ⟨[], refsOf roots⟩ w →
      n ≤ heap.turnsFor (refsOf roots) (heap.reachable roots)) ∧
    (∀ w, heap.Turns (heap.turnsFor (refsOf roots) (heap.reachable roots)) ⟨[], refsOf roots⟩ w ↔
      w = ⟨heap.reachable roots, []⟩) ∧
    (heap.reachable roots).Nodup ∧
    (∀ h, h ∈ heap.reachable roots ↔ heap.Reach (refsOf roots) h) ∧
    ∀ found, heap.Search [] (refsOf roots) found ↔ found = heap.reachable roots := by
  have hwalk := turns_reachable hc hroots
  refine ⟨fun n w hn => (hwalk.le_of_finished hn).1, fun w => ⟨fun hw => ?_, ?_⟩,
    (heap.nodup_walk {} (refsOf roots)).1, fun h => hc.mem_reachable_iff hroots,
    fun found => ⟨fun hsearch => ?_, ?_⟩⟩
  · exact (hwalk.le_of_finished hw).2 rfl
  · rintro rfl
    exact hwalk
  · obtain ⟨n, hn⟩ := search_iff_turns.mp hsearch
    exact hwalk.found_unique hn
  · rintro rfl
    exact search_iff_turns.mpr ⟨_, hwalk⟩

/-- Objects that share others and lie on cycles. -/
def sharedHeap : Heap :=
  ⟨#[.seq [.ref 2], .record [] [("self", .ref 1), ("back", .ref 0)], .seq [.ref 3, .ref 2, .ref 0],
    .seq []]⟩

/-- The last root is found below the first, before the root that stands between them. -/
theorem reachable_depthFirst_shared :
    sharedHeap.Closed ∧ (∀ h ∈ refsOf [.ref 0, .null, .ref 1, .ref 3], h < sharedHeap.size) ∧
      sharedHeap.reachable [.ref 0, .null, .ref 1, .ref 3] = [0, 2, 3, 1] ∧
      sharedHeap.Turns 9 ⟨[], [0, 1, 3]⟩ ⟨[0, 2, 3, 1], []⟩ := by
  have hc : sharedHeap.Closed := by decide
  have hroots : ∀ h ∈ refsOf [.ref 0, .null, .ref 1, .ref 3], h < sharedHeap.size := by decide
  have hbelow : sharedHeap.Search [0, 2] [3, 2, 0] [0, 2, 3] :=
    .enter (by decide) .done (.pass (by decide) (.pass (by decide) .done))
  have hlast : sharedHeap.Search [0, 2, 3] [1, 3] [0, 2, 3, 1] :=
    .enter (by decide) (.pass (by decide) (.pass (by decide) .done)) (.pass (by decide) .done)
  have hsearch : sharedHeap.Search [] [0, 1, 3] [0, 2, 3, 1] :=
    .enter (by decide) (.enter (by decide) hbelow .done) hlast
  obtain ⟨-, hturns, -, -, horder⟩ := reachable_depthFirst hc hroots
  have hfound := (horder _).mp hsearch
  rw [← hfound] at hturns
  exact ⟨hc, hroots, hfound.symm, (hturns _).mpr rfl⟩

end Comptime.Heap
