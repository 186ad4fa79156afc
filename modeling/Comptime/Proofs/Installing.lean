import Comptime.Proofs.Settlement
import Comptime.Proofs.Visiting
import Mathlib

/-! Installation, from the roots on. The heap is rewritten while it is walked, so the walk follows
references that it has put there itself. It ends with all that can then be reached settled, with all
else as it was, and with a count of the items that it replaced. -/
namespace Comptime.Chain

variable {chain : Chain} {roots : List Item} {heap heap' heap₀ : Heap} {start stack : List Handle}
  {seen : HandleSet} {done : List Handle} {h : Handle} {n n' : Nat} {x : Item}

section Count

/-- How many items of the given objects have something to be replaced by. -/
def replaced (chain : Chain) (heap : Heap) (handles : List Handle) : Nat :=
  (handles.flatMap heap.items).countP fun x => (settled? chain x).isSome

/-- An installation together with the objects it has finished, none of them twice, and its count. -/
structure Counting (chain : Chain) (heap₀ : Heap) (start : List Handle) (seen : HandleSet)
    (stack : List Handle) (heap : Heap) (done : List Handle) (n : Nat) : Prop where
  installing : Installing chain heap₀ start seen stack heap
  nodup : done.Nodup
  mem_iff : ∀ h, h ∈ done ↔ h ∈ seen
  count : n = replaced chain heap₀ done

theorem count_replaceChildren (heap : Heap) (h : Handle) :
    (heap.replaceChildren h (settled? chain)).2 =
      (heap.items h).countP fun x => (settled? chain x).isSome := by
  unfold Heap.replaceChildren Heap.items Heap.children
  cases heap.get? h with
  | none => rfl
  | some o =>
    simp only [Object.replaceChildren_eq_land, Option.elim_some, List.countP_map]
    rfl

theorem Counting.visit (hc : Counting chain heap₀ start seen (h :: stack) heap done n)
    (hlt : h < heap₀.size) (hn : h ∉ seen)
    (hs : (heap.items h).findSome? (unsettled? chain) = none) :
    Counting chain heap₀ start (seen.insert h)
      (((heap.replaceChildren h (settled? chain)).1.refs h).reverse ++ stack)
      (heap.replaceChildren h (settled? chain)).1 (h :: done)
      (n + (heap.replaceChildren h (settled? chain)).2) where
  installing := hc.installing.visit hlt hn hs
  nodup := List.nodup_cons.mpr ⟨fun hd => hn ((hc.mem_iff h).mp hd), hc.nodup⟩
  mem_iff k := by rw [List.mem_cons, mem_insert_seen, hc.mem_iff k]
  count := by
    rw [count_replaceChildren, hc.installing.items hn, hc.count, replaced, replaced,
      List.flatMap_cons, List.countP_append, Nat.add_comm]

/-- The count is right at the end of a run. -/
theorem installFrom_counts
    (hrun : installFrom chain heap₀.size seen stack heap n = (.ok n', heap')) :
    ∀ done, Counting chain heap₀ start seen stack heap done n →
      ∃ seen' done', Counting chain heap₀ start seen' [] heap' done' n' := by
  fun_induction installFrom chain heap₀.size seen stack heap n with
  | case1 seen heap n =>
    cases hrun
    exact fun done hc => ⟨seen, done, hc⟩
  | case2 => cases hrun
  | case3 seen h stack heap n hlt he next ih =>
    exact fun done hc => ih hrun (h :: done) (hc.visit hlt.1 hlt.2 he)
  | case4 seen h stack heap n hlt ih =>
    exact fun done hc =>
      ih hrun done ⟨hc.installing.skip hlt, hc.nodup, hc.mem_iff, hc.count⟩

end Count

/-- What an installation leaves: the objects that can now be reached are settled, and all others are
as they were. -/
structure Installed (chain : Chain) (roots : List Item) (heap heap' : Heap) : Prop where
  below : ∀ k, heap'.Reach (refsOf roots) k → heap'.get? k = (settledHeap chain heap).get? k
  apart : ∀ k, ¬heap'.Reach (refsOf roots) k → heap'.get? k = heap.get? k
  settles : ∀ k, heap'.Reach (refsOf roots) k → ∀ x ∈ heap.items k, unsettled? chain x = none

namespace Installed

variable {k : Handle}

theorem shape (hi : Installed chain roots heap heap') (k : Handle) :
    (heap'.get? k).map Object.shape = (heap.get? k).map Object.shape := by
  by_cases hr : heap'.Reach (refsOf roots) k
  · rw [hi.below k hr, get?_settledHeap, Option.map_map]
    congr 1
    funext o
    rw [Function.comp_apply, Object.replaceChildren_eq_land]
    exact (Object.children_land_all _ o).2
  · rw [hi.apart k hr]

theorem size (hi : Installed chain roots heap heap') : heap'.size = heap.size := by
  refine eq_of_forall_ge_iff fun k => ?_
  rw [← Heap.get?_eq_none_iff, ← Heap.get?_eq_none_iff, ← Option.map_eq_none_iff, hi.shape k,
    Option.map_eq_none_iff]

/-- With names that are different, each child is replaced by what it settles to. -/
theorem children (hi : Installed chain roots heap heap') (hr : heap'.Reach (refsOf roots) k)
    (hn : (heap.names k).Nodup) :
    heap'.children k = (heap.children k).map fun c => (c.1, endOf chain c.2) := by
  rw [Heap.children, hi.below k hr, get?_settledHeap]
  unfold Heap.children
  cases ho : heap.get? k with
  | none => rfl
  | some o =>
    rw [Heap.names, ho] at hn
    rw [Option.map_some, Option.elim_some, Option.elim_some, Object.replaceChildren_eq_land,
      (Object.children_land_all _ o).1, landed_of_nodup (Object.nodup_places_iff.mpr hn)]
    rfl

end Installed

theorem Counting.installed (hc : Counting chain heap (refsOf roots) seen [] heap' done n) :
    Installed chain roots heap heap' ∧
      ∀ k, k < heap.size → (heap'.Reach (refsOf roots) k ↔ k ∈ done) := by
  have hi := hc.installing
  -- both heaps have the same objects below the roots, so the same can be reached in them
  have hreach (k : Handle) : heap'.Reach (refsOf roots) k ↔
      (settledHeap chain heap).Reach (refsOf roots) k :=
    Heap.reach_congr fun k hr => (hi.finished hr).1
  refine ⟨⟨fun k hr => ?_, fun k hr => ?_, fun k hr => ?_⟩, fun k hlt => ?_⟩
  · exact (hi.finished ((hreach k).mp hr)).1
  · have hk : k ∉ seen := fun hk => hr ((hreach k).mpr (hi.reached k hk).2)
    rw [hi.get? k, if_neg hk]
  · exact (hi.finished ((hreach k).mp hr)).2
  · rw [hreach, hc.mem_iff]
    constructor
    · exact fun hr => hi.covers.mem_of_reach hr (by rwa [size_settledHeap])
    · exact fun hk => (hi.reached k hk).2

/-- The objects that were finished are those that can now be reached. -/
theorem install_counts (hrun : install chain roots heap = (.ok n, heap')) :
    Installed chain roots heap heap' ∧ n = replaced chain heap (heap'.reachable roots) := by
  have hinit : Counting chain heap (refsOf roots) {} (refsOf roots).reverse heap [] 0 :=
    ⟨.init chain roots heap, List.nodup_nil, by simp, rfl⟩
  obtain ⟨seen, done, hc⟩ := installFrom_counts hrun [] hinit
  obtain ⟨hinstalled, hdone⟩ := hc.installed
  have hsize := hinstalled.size
  obtain ⟨hnodup, hwalk⟩ := heap'.nodup_walk {} (refsOf roots)
  have hperm : done.Perm (heap'.reachable roots) := by
    refine (List.perm_ext_iff_of_nodup hc.nodup hnodup).mpr fun k => ?_
    constructor
    · intro hk
      have hlt := (hc.installing.reached k ((hc.mem_iff k).mp hk)).1
      exact (Heap.mem_reachable_iff.mpr ⟨(hdone k hlt).mpr hk, hsize ▸ hlt⟩).1
    · intro hk
      have hlt := (hwalk k hk).1
      exact (hdone k (hsize ▸ hlt)).mp (Heap.mem_reachable_iff.mp ⟨hk, hlt⟩).1
  exact ⟨hinstalled, hc.count.trans ((hperm.flatMap_right _).countP_eq _)⟩

/-- A child before and after: it keeps its place, and holds the end of its chain. -/
structure SettlesTo (chain : Chain) (c c' : Child) : Prop where
  place : c'.1 = c.1
  ends : Ends chain c.2 c'.2
  known : (∀ p, c.2 ≠ .hole p) → c'.2 = c.2

theorem settlesTo_endOf {c : Child} (h : unsettled? chain c.2 = none) :
    SettlesTo chain c (c.1, endOf chain c.2) where
  place := rfl
  ends := ends_endOf h
  known := endOf_known

/-- Everything below the roots is settled, and nothing else has changed. -/
structure SettlesBelow (chain : Chain) (roots : List Item) (heap heap' : Heap) : Prop where
  size : heap'.size = heap.size
  shape : ∀ k, (heap'.get? k).map Object.shape = (heap.get? k).map Object.shape
  apart : ∀ k, ¬heap'.Reach (refsOf roots) k → heap'.get? k = heap.get? k
  children : ∀ k, heap'.Reach (refsOf roots) k →
    List.Forall₂ (SettlesTo chain) (heap.children k) (heap'.children k)
  waits : ∀ k, heap'.Reach (refsOf roots) k → ∀ p, .hole p ∈ heap'.items k →
    read chain p = .pending

theorem Installed.settlesBelow (hi : Installed chain roots heap heap')
    (hn : ∀ k, (heap.names k).Nodup) : SettlesBelow chain roots heap heap' where
  size := hi.size
  shape := hi.shape
  apart := hi.apart
  children k hr := by
    rw [hi.children hr (hn k), List.forall₂_map_right_iff, List.forall₂_same]
    exact fun c hc => settlesTo_endOf (hi.settles k hr c.2 (List.mem_map_of_mem hc))
  waits k hr p hp := by
    rw [Heap.items, hi.children hr (hn k), List.map_map] at hp
    obtain ⟨c, hc, hcp⟩ := List.mem_map.mp hp
    have hends := ends_endOf (hi.settles k hr c.2 (List.mem_map_of_mem hc))
    exact hends.2 p hcp

/-- An installation ends. Where the fields of each object have names of their own, and so have the
captures, it either settles all that can be reached from the roots in the end and leaves all else as
it was, or meets an item whose chain has no end. -/
theorem install_settles (chain : Chain) (roots : List Item)
    (hn : ∀ k < heap.size, (heap.names k).Nodup) :
    (∃ n heap', install chain roots heap = (.ok n, heap') ∧
      SettlesBelow chain roots heap heap') ∨
    ∃ e heap', install chain roots heap = (.error e, heap') ∧
      ∃ k, (settledHeap chain heap).Reach (refsOf roots) k ∧
        ∃ x ∈ heap.items k, ∀ y, ¬Ends chain x y := by
  obtain ⟨n, heap', hrun, -⟩ | ⟨e, heap', hrun, k, hr, x, hx, hne⟩ := install_cases chain roots heap
  · have hnames (k : Handle) : (heap.names k).Nodup := by
      by_cases hlt : k < heap.size
      · exact hn k hlt
      · rw [Heap.names, Heap.get?_eq_none_iff.mpr (Nat.le_of_not_lt hlt)]
        exact List.nodup_nil
    exact .inl ⟨n, heap', hrun, (install_counts hrun).1.settlesBelow hnames⟩
  · exact .inr ⟨e, heap', hrun, k, hr, x, hx,
      not_exists.mp (mt unsettled?_eq_none_iff.mpr hne)⟩

section Tangle

/-- A list and a record that are to hold each other, and a list that neither leads to. -/
def tangle : Heap :=
  ⟨#[.seq [.hole (.slot ⟨0, 1⟩), .null],
    .record [] [("back", .hole (.slot ⟨0, 2⟩)), ("later", .hole (.slot ⟨0, 3⟩))],
    .seq [.hole (.slot ⟨0, 0⟩)]]⟩

/-- The first two slots hold them, the third stands for the first, and the last is open. -/
def tangling : Chain :=
  [{ groups := [⟨0, "objects", #[⟨.lazySlot ⟨0, 0⟩, some (.ref 0)⟩,
    ⟨.lazySlot ⟨0, 1⟩, some (.ref 1)⟩, ⟨.lazySlot ⟨0, 0⟩, some (.hole (.slot ⟨0, 0⟩))⟩,
    ⟨.lazySlot ⟨0, 3⟩, none⟩]⟩] }]

/-- The record is found through the reference that settling the list puts there, and its way back
leads through two slots. -/
theorem install_settles_tangle :
    (∀ k < tangle.size, (tangle.names k).Nodup) ∧
      ∃ heap', install tangling [.ref 0] tangle = (.ok 2, heap') ∧
        heap'.objects = #[.seq [.ref 1, .null],
          .record [] [("back", .ref 0), ("later", .hole (.slot ⟨0, 3⟩))],
          .seq [.hole (.slot ⟨0, 0⟩)]] ∧
        SettlesBelow tangling [.ref 0] tangle heap' := by
  have hnames : ∀ k < tangle.size, (tangle.names k).Nodup := by decide
  have hrun : install tangling [.ref 0] tangle =
      (.ok 2, ⟨#[.seq [.ref 1, .null],
        .record [] [("back", .ref 0), ("later", .hole (.slot ⟨0, 3⟩))],
        .seq [.hole (.slot ⟨0, 0⟩)]]⟩) := by cbv
  obtain ⟨n, heap', he, hsettles⟩ | ⟨e, heap', he, -⟩ :=
    install_settles tangling [.ref 0] hnames
  · rw [hrun] at he
    cases he
    exact ⟨hnames, _, hrun, rfl, hsettles⟩
  · rw [hrun] at he
    cases he

end Tangle

/-- What settling says of an item. There is nothing to replace where the item is known, or its first
read has to wait; a placeholder that can be read is replaced by the end of its chain; and settling
fails where a read of the chain fails or the chain comes back to itself. A number that differs from
itself is the one exception: it counts as replaced, by itself. -/
theorem settles_exactly (chain : Chain) :
    (∀ x, settle chain x = .ok none ↔ Rests chain x ∧ x.isNaN = false) ∧
    (∀ x y, settle chain x = .ok (some y) ↔
      (∃ z, Reads chain x z ∧ Ends chain z y) ∨ (y = x ∧ x.isNaN)) ∧
    (∀ x e, settle chain x = .error e ↔
      Breaks chain x e ∨ (e = .selfReference x ∧ Loops chain x)) ∧
    (∀ x y, settle chain x = .ok (some y) →
      settle chain y = .ok (if y.isNaN then some y else none)) ∧
    ∀ roots heap n heap', install chain roots heap = (.ok n, heap') →
      n = ((heap'.reachable roots).flatMap heap.items).countP
        fun x => advances chain x || x.isNaN := by
  refine ⟨fun x => settle_eq_none_iff, fun x y => settle_eq_some_iff,
    fun x e => settle_eq_error_iff, fun x y hx => ?_, fun roots heap n heap' hrun => ?_⟩
  · have hrests : Rests chain y := by
      obtain ⟨z, -, hends⟩ | ⟨rfl, hnan⟩ := settle_eq_some_iff.mp hx
      · exact hends.2
      · exact rests_of_isNaN hnan
    cases hnan : y.isNaN with
    | true => exact settle_eq_some_iff.mpr (.inr ⟨rfl, hnan⟩)
    | false => exact settle_eq_none_iff.mpr ⟨hrests, hnan⟩
  · obtain ⟨hi, rfl⟩ := install_counts hrun
    refine List.countP_congr fun x hx => ?_
    obtain ⟨k, hk, hxk⟩ := List.mem_flatMap.mp hx
    have hlt := ((heap'.nodup_walk {} (refsOf roots)).2 k hk).1
    have hreach := (Heap.mem_reachable_iff.mp ⟨hk, hlt⟩).1
    rw [isSome_settled? (hi.settles k hreach x hxk)]

/-- A number that differs from itself. -/
def nan : Item := .num (.ofBits 0x7ff8000000000000)

/-- It settles to itself although it is no placeholder, and an installation counts it. -/
theorem not_settles_nan :
    (∀ p, nan ≠ .hole p) ∧ settle [] nan = .ok (some nan) ∧
      install [] [.ref 0] ⟨#[.seq [nan]]⟩ = (.ok 1, ⟨#[.seq [nan]]⟩) := by
  refine ⟨?_, rfl, by cbv⟩
  rintro p ⟨⟩

end Comptime.Chain
