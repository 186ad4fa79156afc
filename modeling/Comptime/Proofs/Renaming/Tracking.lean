import Comptime.Proofs.Renaming.Basic
import Comptime.Proofs.Tracking

/-! Tracking does not depend on the names of the handles: on a heap with renamed objects it takes
the same steps on the renamed handles. -/
namespace Comptime

/-- On the handles in `D`, the second heap holds the renamed objects of the first under renamed
handles. Nothing is asked of other handles. -/
structure Heap.Mirrors (r : Renaming) (D : Handle → Prop) (heap heap' : Heap) : Prop where
  inj : ∀ {h k}, D h → D k → r.handle h = r.handle k → h = k
  closed : ∀ {h k}, D h → k ∈ heap.refs h → D k
  get? : ∀ {h}, D h → heap'.get? (r.handle h) = (heap.get? h).map (Object.rename r)

variable {r : Renaming} {D : Handle → Prop} {heap heap' : Heap} {h k : Handle}

namespace Heap.Mirrors

theorem refl (heap : Heap) : heap.Mirrors {} (fun _ => True) heap where
  inj _ _ he := he
  closed _ _ := trivial
  get? {h} _ := by
    change heap.get? h = _
    cases heap.get? h <;> simp

variable (hm : heap.Mirrors r D heap')
include hm

theorem children (hd : D h) :
    heap'.children (r.handle h) = (heap.children h).map (Child.rename r) := by
  simp only [Heap.children, hm.get? hd]
  cases heap.get? h with
  | none => rfl
  | some o => exact o.children_rename

theorem items (hd : D h) : heap'.items (r.handle h) = (heap.items h).map (Item.rename r) := by
  rw [Heap.items, Heap.items, hm.children hd]
  simp [Child.rename, Function.comp_def]

theorem refs (hd : D h) : heap'.refs (r.handle h) = (heap.refs h).map r.handle := by
  rw [Heap.refs, Heap.refs, ← refsOf_rename, hm.items hd]

theorem lt_iff (hd : D h) : r.handle h < heap'.size ↔ h < heap.size := by
  rw [← not_iff_not, Nat.not_lt, Nat.not_lt, ← Heap.get?_eq_none_iff, ← Heap.get?_eq_none_iff,
    hm.get? hd, Option.map_eq_none_iff]

theorem isInlinable (hd : D h) : heap'.isInlinable (r.handle h) = heap.isInlinable h := by
  rw [Heap.isInlinable, Heap.isInlinable, hm.get? hd]
  cases heap.get? h <;> simp

theorem eq_iff (hd : D h) (hk : D k) : r.handle h = r.handle k ↔ h = k :=
  ⟨hm.inj hd hk, congrArg r.handle⟩

theorem mem_map_iff (hd : D h) {l : List Handle} (hl : ∀ k ∈ l, D k) :
    r.handle h ∈ l.map r.handle ↔ h ∈ l := by
  constructor
  · intro hmem
    obtain ⟨k, hk, he⟩ := List.mem_map.mp hmem
    exact hm.inj (hl k hk) hd he ▸ hk
  · exact List.mem_map_of_mem

end Heap.Mirrors

/-- The second set has the renamed members of the first, as far as `D` goes. -/
def SetMirrors (r : Renaming) (D : Handle → Prop) (seen seen' : HandleSet) : Prop :=
  ∀ h, D h → (r.handle h ∈ seen' ↔ h ∈ seen)

variable {seen seen' : HandleSet}

theorem SetMirrors.empty : SetMirrors r D {} {} := by
  intro h _
  simp

theorem SetMirrors.insert (hm : heap.Mirrors r D heap') (hs : SetMirrors r D seen seen')
    (hd : D h) : SetMirrors r D (seen.insert h) (seen'.insert (r.handle h)) := by
  intro k hk
  simp only [Std.TreeSet.mem_insert, compare_eq_iff_eq, hm.eq_iff hd hk, hs k hk]

theorem pick_mirrors (hm : heap.Mirrors r D heap') (hs : SetMirrors r D seen seen')
    {hs' : List Handle} (hd : ∀ h ∈ hs', D h) :
    (pick heap'.size seen' (hs'.map r.handle)).1 =
        (pick heap.size seen hs').1.map r.handle ∧
      SetMirrors r D (pick heap.size seen hs').2
        (pick heap'.size seen' (hs'.map r.handle)).2 := by
  induction hs' generalizing seen seen' with
  | nil => exact ⟨rfl, hs⟩
  | cons h rest ih =>
    have hh := hd h List.mem_cons_self
    have hrest : ∀ k ∈ rest, D k := fun k hk => hd k (List.mem_cons_of_mem h hk)
    simp only [List.map_cons, pick, hm.lt_iff hh, hs h hh]
    split
    · obtain ⟨h1, h2⟩ := ih (hs.insert hm hh) hrest
      exact ⟨by simp [h1], h2⟩
    · exact ih hs hrest

namespace Tracker

/-- The second tracker has the renamed handles of the first, in the same order. -/
structure Mirrors (r : Renaming) (D : Handle → Prop) (t u : Tracker) : Prop where
  order : u.order = t.order.map r.handle
  noted : SetMirrors r D t.noted u.noted
  expanded : SetMirrors r D t.expanded u.expanded
  queue : u.queue.toList = t.queue.toList.map r.handle
  mem_order : ∀ {h}, h ∈ t.order → D h
  mem_queue : ∀ {h}, h ∈ t.queue.toList → D h

variable {t u : Tracker}

theorem mirrors_empty : Mirrors r D {} {} where
  order := rfl
  noted := SetMirrors.empty
  expanded := SetMirrors.empty
  queue := rfl
  mem_order hmem := nomatch hmem
  mem_queue hmem := nomatch hmem

section

theorem mirrors_enqueue (ht : t.Mirrors r D u) (hd : D h) :
    (t.enqueue h).Mirrors r D (u.enqueue (r.handle h)) := by
  simp only [enqueue, ht.expanded h hd]
  split
  · exact ht
  · refine { ht with queue := ?_, mem_queue := ?_ }
    · simp [ht.queue]
    · intro k hk
      rw [Queue.toList_push, List.mem_append, List.mem_singleton] at hk
      rcases hk with hk | rfl
      · exact ht.mem_queue hk
      · exact hd

variable (hm : heap.Mirrors r D heap') (ht : t.Mirrors r D u) (hd : D h)
include hm ht hd

theorem isTracked_mirrors : u.isTracked (r.handle h) = t.isTracked h := by
  rw [Bool.eq_iff_iff, isTracked_iff, isTracked_iff, ht.order]
  exact hm.mem_map_iff hd fun k => ht.mem_order

theorem id?_mirrors : u.id? (r.handle h) = t.id? h := by
  ext i
  simp only [id?_eq_some_iff, ht.order, List.getElem?_map]
  constructor
  · intro he
    obtain ⟨k, hk, hkh⟩ := Option.map_eq_some_iff.mp he
    exact hm.inj (ht.mem_order (List.mem_of_getElem? hk)) hd hkh ▸ hk
  · intro he
    rw [he, Option.map_some]

theorem mirrors_add : (t.add h).Mirrors r D (u.add (r.handle h)) := by
  simp only [add, isTracked_mirrors hm ht hd]
  split
  · exact ht
  · rename_i hn
    have hnt : h ∉ t.order := fun hmem => hn (isTracked_iff.mpr hmem)
    have hnu : r.handle h ∉ u.order := by
      rw [ht.order, hm.mem_map_iff hd fun k => ht.mem_order]
      exact hnt
    have horder : (t.roster.add h).toList = t.order ++ [h] := by
      rw [Roster.toList_add]
      exact if_neg hnt
    have horder' : (u.roster.add (r.handle h)).toList = u.order ++ [r.handle h] := by
      rw [Roster.toList_add]
      exact if_neg hnu
    refine mirrors_enqueue { ht with order := ?_, mem_order := ?_ } hd
    · change (u.roster.add (r.handle h)).toList = (t.roster.add h).toList.map r.handle
      rw [horder, horder', ht.order, List.map_append, List.map_singleton]
    · intro k hk
      change k ∈ (t.roster.add h).toList at hk
      rw [horder, List.mem_append, List.mem_singleton] at hk
      rcases hk with hk | rfl
      · exact ht.mem_order hk
      · exact hd

theorem mirrors_refer : (t.refer heap h).Mirrors r D (u.refer heap' (r.handle h)) := by
  have hin := hm.isInlinable hd
  simp only [Heap.isInlinable] at hin
  simp only [refer, hin, ht.noted h hd]
  split
  · split
    · exact mirrors_add hm ht hd
    · exact mirrors_enqueue { ht with noted := ht.noted.insert hm hd } hd
  · exact mirrors_add hm ht hd

end

/-- Both queues have the same head, up to its name. -/
theorem Mirrors.pop? {rest : Queue Handle} (ht : t.Mirrors r D u)
    (hq : t.queue.pop? = some (h, rest)) :
    ∃ rest', D h ∧ u.queue.pop? = some (r.handle h, rest') ∧
      { t with queue := rest }.Mirrors r D { u with queue := rest' } := by
  have htl := Queue.toList_eq_cons_of_pop? hq
  have hul : u.queue.toList = r.handle h :: rest.toList.map r.handle := by
    rw [ht.queue, htl, List.map_cons]
  have hd : D h := ht.mem_queue (htl ▸ List.mem_cons_self)
  have hrest : ∀ {k}, k ∈ rest.toList → D k := fun hk =>
    ht.mem_queue (htl ▸ List.mem_cons_of_mem h hk)
  cases hp : u.queue.pop? with
  | none => simp [Queue.pop?_eq_none_iff.mp hp] at hul
  | some p =>
    obtain ⟨k, rest'⟩ := p
    rw [Queue.toList_eq_cons_of_pop? hp, List.cons.injEq] at hul
    obtain ⟨rfl, hq'⟩ := hul
    exact ⟨rest', hd, rfl, { ht with queue := hq', mem_queue := hrest }⟩

theorem close_of_pop?_eq_none (hq : t.queue.pop? = none) : t.close heap = t := by
  rw [close]
  split
  · rfl
  · simp_all

theorem close_of_pop?_eq_some {rest : Queue Handle} (hq : t.queue.pop? = some (h, rest)) :
    t.close heap =
      if h < heap.size ∧ h ∉ t.expanded then close heap ({ t with queue := rest }.expand heap h)
      else close heap { t with queue := rest } := by
  rw [close]
  split
  · simp_all
  · rename_i he
    rw [hq, Option.some.injEq, Prod.mk.injEq] at he
    obtain ⟨rfl, rfl⟩ := he
    rfl

variable (hm : heap.Mirrors r D heap')
include hm

theorem mirrors_foldl_refer (hs : List Handle) (hd : ∀ h ∈ hs, D h) (ht : t.Mirrors r D u) :
    (hs.foldl (refer heap) t).Mirrors r D ((hs.map r.handle).foldl (refer heap') u) := by
  induction hs generalizing t u with
  | nil => exact ht
  | cons h hs ih =>
    have hh := hd h List.mem_cons_self
    exact ih (fun k hk => hd k (List.mem_cons_of_mem h hk)) (mirrors_refer hm ht hh)

theorem mirrors_expand (ht : t.Mirrors r D u) (hd : D h) :
    (t.expand heap h).Mirrors r D (u.expand heap' (r.handle h)) := by
  rw [expand, expand, hm.refs hd]
  exact mirrors_foldl_refer hm _ (fun k hk => hm.closed hd hk)
    { ht with expanded := ht.expanded.insert hm hd }

theorem mirrors_close (ht : t.Mirrors r D u) : (t.close heap).Mirrors r D (u.close heap') := by
  fun_induction close heap t generalizing u with
  | case1 t hq =>
    have hnil : u.queue.toList = [] := by
      rw [ht.queue, Queue.pop?_eq_none_iff.mp hq, List.map_nil]
    rw [close_of_pop?_eq_none (Queue.pop?_eq_none_iff.mpr hnil)]
    exact ht
  | case2 t h rest hq hlt ih =>
    obtain ⟨rest', hd, hq', ht'⟩ := ht.pop? hq
    rw [close_of_pop?_eq_some hq', if_pos (by rwa [hm.lt_iff hd, ht.expanded h hd])]
    exact ih (mirrors_expand hm ht' hd)
  | case3 t h rest hq hlt ih =>
    obtain ⟨rest', hd, hq', ht'⟩ := ht.pop? hq
    rw [close_of_pop?_eq_some hq', if_neg (by rwa [hm.lt_iff hd, ht.expanded h hd])]
    exact ih ht'

end Tracker

end Comptime
