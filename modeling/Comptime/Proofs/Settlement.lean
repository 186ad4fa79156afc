import Comptime.Compile
import Comptime.Proofs.Following
import Comptime.Proofs.Reachability
import Comptime.Proofs.Refilling
import Mathlib.Tactic.ByContra
import Mathlib.Tactic.Tauto

/-! Settlement below given roots. It succeeds exactly if every item it meets settles, and then every
object below the roots has its children settled; the order of the walk plays no part. A program is
settled literal by literal, and its first fault is kept. -/
namespace Comptime

variable {heap heap' : Heap} {start stack more : List Handle} {seen : HandleSet} {h k : Handle}
  {chain : Chain} {roots : List Item} {x : Item}

/-- What was seen leads only to what was seen or is still on the stack, and so does the start. -/
structure Heap.Covers (heap : Heap) (start : List Handle) (seen : HandleSet)
    (stack : List Handle) : Prop where
  start : ∀ h ∈ start, h < heap.size → h ∈ seen ∨ h ∈ stack
  closed : ∀ h ∈ seen, ∀ k ∈ heap.refs h, k < heap.size → k ∈ seen ∨ k ∈ stack

namespace Heap.Covers

theorem init (hs : ∀ h ∈ start, h ∈ stack) : heap.Covers start {} stack where
  start h hmem _ := Or.inr (hs h hmem)
  closed h hmem := by simp at hmem

theorem visit (hc : heap.Covers start seen (h :: stack)) (hm : ∀ k ∈ heap.refs h, k ∈ more) :
    heap.Covers start (seen.insert h) (more ++ stack) := by
  have hkeep : ∀ {k}, k ∈ seen ∨ k ∈ h :: stack → k ∈ seen.insert h ∨ k ∈ more ++ stack := by
    intro k hk
    rw [mem_insert_seen, List.mem_append]
    rcases hk with hk | hk
    · exact Or.inl (Or.inr hk)
    · rcases List.mem_cons.mp hk with rfl | hk
      · exact Or.inl (Or.inl rfl)
      · exact Or.inr (Or.inr hk)
  refine ⟨fun k hk hlt => hkeep (hc.start k hk hlt), fun g hg k hk hlt => ?_⟩
  rw [mem_insert_seen] at hg
  rcases hg with rfl | hg
  · exact Or.inr (List.mem_append_left stack (hm k hk))
  · exact hkeep (hc.closed g hg k hk hlt)

theorem skip (hc : heap.Covers start seen (h :: stack)) (hn : ¬(h < heap.size ∧ h ∉ seen)) :
    heap.Covers start seen stack := by
  have hkeep : ∀ {k}, k < heap.size → k ∈ seen ∨ k ∈ h :: stack → k ∈ seen ∨ k ∈ stack := by
    intro k hlt hk
    rcases hk with hk | hk
    · exact Or.inl hk
    · rcases List.mem_cons.mp hk with rfl | hk
      · exact Or.inl (by_contra fun hs => hn ⟨hlt, hs⟩)
      · exact Or.inr hk
  exact ⟨fun k hk hlt => hkeep hlt (hc.start k hk hlt),
    fun g hg k hk hlt => hkeep hlt (hc.closed g hg k hk hlt)⟩

/-- With nothing left on the stack, all that can be reached was seen. -/
theorem mem_of_reach (hc : heap.Covers start seen []) (hr : heap.Reach start h)
    (hlt : h < heap.size) : h ∈ seen := by
  have hnil : ∀ {k}, k ∈ seen ∨ k ∈ [] → k ∈ seen := fun hk => hk.resolve_right List.not_mem_nil
  refine hr.mem_of_closed (p := fun k => k < heap.size → k ∈ seen)
    (fun k hk hlt => hnil (hc.start k hk hlt)) (fun g hg k hk hlt => ?_) hlt
  exact hnil (hc.closed g (hg (Heap.lt_of_mem_refs hk)) k hk hlt)

end Heap.Covers

section Walk

theorem Heap.mem_walk (hc : heap.Covers start seen stack)
    (hs : ∀ h ∈ stack, heap.Reach start h) (hn : ∀ h ∈ seen, heap.Reach start h) :
    ∃ seen', heap.Covers start seen' [] ∧ (∀ h ∈ seen', heap.Reach start h) ∧
      ∀ h, h ∈ seen' ↔ h ∈ seen ∨ h ∈ heap.walk seen stack := by
  fun_induction Heap.walk heap seen stack with
  | case1 seen => exact ⟨seen, hc, hn, by simp⟩
  | case2 seen h stack hlt ih =>
    have hh := hs h List.mem_cons_self
    obtain ⟨seen', hc', hr', hmem⟩ := ih (hc.visit fun k hk => hk)
      (fun k hk => by
        rcases List.mem_append.mp hk with hk | hk
        · exact .step hh hk
        · exact hs k (List.mem_cons_of_mem h hk))
      (fun k hk => by
        rw [mem_insert_seen] at hk
        rcases hk with rfl | hk
        · exact hh
        · exact hn k hk)
    refine ⟨seen', hc', hr', fun k => ?_⟩
    rw [hmem k, mem_insert_seen, List.mem_cons]
    tauto
  | case3 seen h stack hlt ih =>
    exact ih (hc.skip hlt) (fun k hk => hs k (List.mem_cons_of_mem h hk)) hn

/-- The walk visits stored objects that were not seen before, and none twice. -/
theorem Heap.nodup_walk (heap : Heap) (seen : HandleSet) (stack : List Handle) :
    (heap.walk seen stack).Nodup ∧ ∀ h ∈ heap.walk seen stack, h < heap.size ∧ h ∉ seen := by
  fun_induction Heap.walk heap seen stack with
  | case1 => simp
  | case2 seen h stack hlt ih =>
    obtain ⟨hnodup, hmem⟩ := ih
    refine ⟨List.nodup_cons.mpr ⟨fun hh => ?_, hnodup⟩, List.forall_mem_cons.mpr ⟨hlt, ?_⟩⟩
    · exact (hmem h hh).2 (mem_insert_seen.mpr (Or.inl rfl))
    · intro k hk
      obtain ⟨hk, hn⟩ := hmem k hk
      exact ⟨hk, fun hs => hn (mem_insert_seen.mpr (Or.inr hs))⟩
  | case3 seen h stack hlt ih => exact ih

/-- The walk finds what can be reached, as far as it is stored. -/
theorem Heap.mem_reachable_iff :
    (h ∈ heap.reachable roots ∧ h < heap.size) ↔ heap.Reach (refsOf roots) h ∧ h < heap.size := by
  have hinit : heap.Covers (refsOf roots) {} (refsOf roots) := .init fun h hh => hh
  obtain ⟨seen', hc, hr, hmem⟩ :=
    Heap.mem_walk hinit (fun h hh => .start hh) (fun h hh => by simp at hh)
  refine and_congr_left fun hlt => ⟨fun hw => hr h ((hmem h).mpr (Or.inr hw)), fun hreach => ?_⟩
  exact ((hmem h).mp (hc.mem_of_reach hreach hlt)).resolve_left (by simp)

end Walk

section Known

theorem validate_eq_resolved_iff {items : List Item} :
    validate items = .resolved () ↔ ∀ x ∈ items, x.isUnknown = false := by
  unfold validate
  constructor
  · intro h x hx
    split at h
    · cases h
    · split at h
      · cases h
      · rename_i hany
        rw [List.any_eq_true] at hany
        exact Bool.eq_false_iff.mpr fun hu => hany ⟨x, hx, hu⟩
  · intro h
    have hany : items.any Item.isUnknown = false := by
      rw [List.any_eq_false]
      exact fun x hx => Bool.eq_false_iff.mp (h x hx)
    split
    · rename_i reason hfind
      obtain ⟨x, hx, hreason⟩ := List.exists_of_findSome?_eq_some hfind
      cases x <;> cases hreason
      cases h _ hx
    · rw [hany]
      rfl

/-- A check passes if what is given is known, and so is what can be reached from it. -/
theorem checkKnown_eq_ok_iff :
    checkKnown heap roots = .ok () ↔ (∀ x ∈ roots, x.isUnknown = false) ∧
      ∀ h, heap.Reach (refsOf roots) h → ∀ x ∈ heap.items h, x.isUnknown = false := by
  have hcheck : checkKnown heap roots = .ok () ↔
      validate (roots ++ (heap.reachable roots).flatMap heap.items) = .resolved () := by
    unfold checkKnown
    dsimp only
    split <;> simp_all
  rw [hcheck, validate_eq_resolved_iff, List.forall_mem_append]
  refine and_congr_right fun _ => ?_
  simp only [List.mem_flatMap, forall_exists_index, and_imp]
  have hlt : ∀ {h x}, x ∈ heap.items h → h < heap.size := by
    intro h x hx
    by_contra hge
    have hnone := Heap.get?_eq_none_iff.mpr (Nat.le_of_not_lt hge)
    simp [Heap.items, Heap.children, hnone] at hx
  constructor
  · intro hall h hr x hx
    exact hall x h (Heap.mem_reachable_iff.mpr ⟨hr, hlt hx⟩).1 hx
  · intro hall x h hw hx
    exact hall h (Heap.mem_reachable_iff.mp ⟨hw, hlt hx⟩).1 x hx

end Known

section Install

namespace Chain

/-- The heap with the children of every object settled, as far as they settle. -/
def settledHeap (chain : Chain) (heap : Heap) : Heap :=
  ⟨heap.objects.map fun o => (o.replaceChildren (settled? chain)).1⟩

theorem size_settledHeap : (settledHeap chain heap).size = heap.size := by
  simp [settledHeap, Heap.size]

theorem get?_settledHeap : (settledHeap chain heap).get? h =
    (heap.get? h).map fun o => (o.replaceChildren (settled? chain)).1 := by
  simp [settledHeap, Heap.get?]

/-- The state of an installation: what was seen is settled, all else is as it was. -/
structure Installing (chain : Chain) (heap₀ : Heap) (start : List Handle) (seen : HandleSet)
    (stack : List Handle) (heap : Heap) : Prop where
  covers : (settledHeap chain heap₀).Covers start seen stack
  get? : ∀ h, heap.get? h = if h ∈ seen then (settledHeap chain heap₀).get? h else heap₀.get? h
  settles : ∀ h ∈ seen, ∀ x ∈ heap₀.items h, unsettled? chain x = none
  reach : ∀ h ∈ stack, (settledHeap chain heap₀).Reach start h
  reached : ∀ h ∈ seen, h < heap₀.size ∧ (settledHeap chain heap₀).Reach start h

variable {heap₀ : Heap}

theorem Installing.items (hi : Installing chain heap₀ start seen stack heap) (hn : h ∉ seen) :
    heap.items h = heap₀.items h := by
  simp only [Heap.items, Heap.children, hi.get? h, if_neg hn]

/-- Settling one more object. -/
theorem Installing.visit (hi : Installing chain heap₀ start seen (h :: stack) heap)
    (hlt : h < heap₀.size) (hn : h ∉ seen)
    (hs : (heap.items h).findSome? (unsettled? chain) = none) :
    Installing chain heap₀ start (seen.insert h)
      (((heap.replaceChildren h (settled? chain)).1.refs h).reverse ++ stack)
      (heap.replaceChildren h (settled? chain)).1 := by
  obtain ⟨o, ho⟩ := Heap.exists_get? hlt
  have hgo : heap.get? h = some o := by rw [hi.get? h, if_neg hn, ho]
  have hF : (settledHeap chain heap₀).get? h = some (o.replaceChildren (settled? chain)).1 := by
    rw [get?_settledHeap, ho, Option.map_some]
  have hnext : (heap.replaceChildren h (settled? chain)).1 =
      heap.set h (o.replaceChildren (settled? chain)).1 := by
    rw [Heap.replaceChildren, hgo]
  have hself : (heap.replaceChildren h (settled? chain)).1.get? h =
      (settledHeap chain heap₀).get? h := by
    rw [hnext, Heap.get?_set, if_pos rfl, hgo, hF, Option.map_some]
  have hrefs : (heap.replaceChildren h (settled? chain)).1.refs h =
      (settledHeap chain heap₀).refs h := by
    simp only [Heap.refs, Heap.items, Heap.children, hself]
  rw [hrefs]
  have hh := hi.reach h List.mem_cons_self
  refine ⟨hi.covers.visit fun k hk => List.mem_reverse.mpr hk, fun k => ?_, fun k hk x hx => ?_,
    fun k hk => ?_, fun k hk => ?_⟩
  · by_cases hk : k = h
    · rw [hk, if_pos (mem_insert_seen.mpr (Or.inl rfl)), hself]
    · have hiff : k ∈ seen.insert h ↔ k ∈ seen := by
        rw [mem_insert_seen, or_iff_right hk]
      rw [hnext, Heap.get?_set, if_neg (Ne.symm hk), hi.get? k]
      simp only [hiff]
  · rcases mem_insert_seen.mp hk with rfl | hk
    · rw [← hi.items hn] at hx
      exact List.findSome?_eq_none_iff.mp hs x hx
    · exact hi.settles k hk x hx
  · rcases List.mem_append.mp hk with hk | hk
    · exact .step hh (List.mem_reverse.mp hk)
    · exact hi.reach k (List.mem_cons_of_mem h hk)
  · rcases mem_insert_seen.mp hk with rfl | hk
    · exact ⟨hlt, hh⟩
    · exact hi.reached k hk

theorem Installing.skip (hi : Installing chain heap₀ start seen (h :: stack) heap)
    (hn : ¬(h < heap₀.size ∧ h ∉ seen)) : Installing chain heap₀ start seen stack heap where
  covers := hi.covers.skip (by rwa [size_settledHeap])
  get? := hi.get?
  settles := hi.settles
  reach k hk := hi.reach k (List.mem_cons_of_mem h hk)
  reached := hi.reached

/-- With nothing left on the stack, all that can be reached is settled. -/
theorem Installing.finished (hi : Installing chain heap₀ start seen [] heap)
    (hr : (settledHeap chain heap₀).Reach start h) :
    heap.get? h = (settledHeap chain heap₀).get? h ∧
      ∀ x ∈ heap₀.items h, unsettled? chain x = none := by
  by_cases hlt : h < heap₀.size
  · have hmem := hi.covers.mem_of_reach hr (by rwa [size_settledHeap])
    exact ⟨by rw [hi.get? h, if_pos hmem], hi.settles h hmem⟩
  · have hnone := Heap.get?_eq_none_iff.mpr (Nat.le_of_not_lt hlt)
    refine ⟨?_, ?_⟩
    · rw [hi.get? h, get?_settledHeap, hnone]
      simp
    · simp [Heap.items, Heap.children, hnone]

/-- An installation runs to its end, or meets an item that does not settle. -/
theorem installFrom_cases {n : Nat} (hi : Installing chain heap₀ start seen stack heap) :
    (∃ n' seen' heap', installFrom chain heap₀.size seen stack heap n = (.ok n', heap') ∧
        Installing chain heap₀ start seen' [] heap') ∨
      ∃ e heap', installFrom chain heap₀.size seen stack heap n = (.error e, heap') ∧
        ∃ h, (settledHeap chain heap₀).Reach start h ∧
          ∃ x ∈ heap₀.items h, unsettled? chain x ≠ none := by
  fun_induction installFrom chain heap₀.size seen stack heap n with
  | case1 seen heap n => exact Or.inl ⟨n, seen, heap, rfl, hi⟩
  | case2 seen h stack heap n hlt e he =>
    obtain ⟨x, hx, hxe⟩ := List.exists_of_findSome?_eq_some he
    rw [hi.items hlt.2] at hx
    exact Or.inr ⟨e, _, rfl, h, hi.reach h List.mem_cons_self, x, hx, by simp [hxe]⟩
  | case3 seen h stack heap n hlt he next ih => exact ih (hi.visit hlt.1 hlt.2 he)
  | case4 seen h stack heap n hlt ih => exact ih (hi.skip hlt)

theorem Installing.init (chain : Chain) (roots : List Item) (heap : Heap) :
    Installing chain heap (refsOf roots) {} (refsOf roots).reverse heap := by
  refine ⟨.init fun h hh => List.mem_reverse.mpr hh, fun h => ?_, fun h hh => ?_, fun h hh => ?_,
    fun h hh => ?_⟩
  · simp
  · simp at hh
  · exact .start (List.mem_reverse.mp hh)
  · simp at hh

/-- An installation succeeds exactly if every item below the roots settles, and then everything
below the roots is settled. -/
theorem install_cases (chain : Chain) (roots : List Item) (heap : Heap) :
    (∃ n heap', install chain roots heap = (.ok n, heap') ∧
        ∀ h, (settledHeap chain heap).Reach (refsOf roots) h →
          heap'.get? h = (settledHeap chain heap).get? h ∧
            ∀ x ∈ heap.items h, unsettled? chain x = none) ∨
      ∃ e heap', install chain roots heap = (.error e, heap') ∧
        ∃ h, (settledHeap chain heap).Reach (refsOf roots) h ∧
          ∃ x ∈ heap.items h, unsettled? chain x ≠ none := by
  rcases installFrom_cases (n := 0) (.init chain roots heap) with ⟨n, seen, heap', he, hi⟩ | herror
  · exact Or.inl ⟨n, heap', he, fun h hr => hi.finished hr⟩
  · exact Or.inr herror

end Chain

end Install

section Program

theorem mapM_settleOffered (items : List Item) (failure : Option Fault) :
    items.mapM (afterOffer chain.settleOffered) failure =
      (items.map fun x => (chain.settled? x).getD x,
        failure.or (items.findSome? chain.unsettled?)) := by
  induction items generalizing failure with
  | nil => exact congrArg (Prod.mk []) Option.or_none.symm
  | cons x items ih =>
    rw [mapM_afterOffer_cons, afterOffer_apply, ih, List.map_cons, List.findSome?_cons]
    unfold Chain.settleOffered Chain.settled? Chain.unsettled?
    cases chain.settle x with
    | ok answer => rfl
    | error e => simp

/-- Settling a program ends with the first fault of its literals; if there is none, then each of
them has been settled. -/
theorem settleProgram_eq (chain : Chain) (p : Program) :
    settleProgram chain p =
      match (Stmt.itemsAll p).findSome? chain.unsettled? with
      | some e => .error e
      | none => .ok (Stmt.mapItemsAll (fun x => (chain.settled? x).getD x) p) := by
  rw [settleProgram, Stmt.offerAll_apply, mapM_settleOffered, Option.none_or, Stmt.refillAll_map]
  cases (Stmt.itemsAll p).findSome? chain.unsettled? <;> rfl

end Program

end Comptime
