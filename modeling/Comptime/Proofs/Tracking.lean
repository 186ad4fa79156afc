import Comptime.Proofs.Reachability
import Comptime.Tracker
import Mathlib.Algebra.Order.BigOperators.Group.Finset
import Mathlib.Data.List.Perm.Subperm

/-! Which objects are tracked, after any calls in any order. A ghost list of all references noted so
far carries the argument: the tracker is a function of that list and of the handles that were asked
for, and closing notes the references of each reachable object once. -/
namespace Comptime

namespace Roster

variable {r : Roster} {h : Handle} {i : Nat}

theorem nodup_toList : r.toList.Nodup := by
  have hkeys : r.index.keys.Nodup := Std.TreeMap.nodup_keys
  have hmem : ∀ k ∈ r.index.keys, k ∈ r.toList := by
    intro k hk
    rw [Std.TreeMap.mem_keys, Std.TreeMap.mem_iff_isSome_getElem?, r.getElem?_index] at hk
    exact List.isSome_idxOf?.mp hk
  have hlen : r.toList.length ≤ r.index.keys.length := by
    rw [length_toList, Std.TreeMap.length_keys, size]
  exact ((hkeys.subperm hmem).perm_of_length_le hlen).nodup hkeys

theorem id?_eq_some_iff : r.id? h = some i ↔ r.toList[i]? = some h := by
  rw [id?_eq, List.idxOf?_eq_some_iff]
  constructor
  · rintro ⟨hi, he, _⟩
    rw [List.getElem?_eq_getElem hi, he]
  · intro he
    obtain ⟨hi, he⟩ := List.getElem?_eq_some_iff.mp he
    refine ⟨hi, he, fun j hj hj' => ?_⟩
    have := nodup_toList.getElem_inj_iff.mp (hj'.trans he.symm)
    omega

end Roster

/-- The object can be written in place. -/
def Heap.isInlinable (heap : Heap) (h : Handle) : Bool := (heap.get? h).any Object.isInlinable

/-- How many references it takes to have the object tracked. -/
def Heap.threshold (heap : Heap) (h : Handle) : Nat := if heap.isInlinable h then 2 else 1

namespace Tracker

variable {heap : Heap} {t : Tracker} {h k : Handle} {asked referred : List Handle}

/-- What can be done with a tracker. -/
inductive Call
  | add (h : Handle)
  | addItems (items : List Item)
  | addRoot (item : Item)
  | close

def call (heap : Heap) (t : Tracker) : Call → Tracker
  | .add h => t.add h
  | .addItems items => t.addItems items
  | .addRoot item => t.addRoot heap item
  | .close => t.close heap

/-- The tracker after some calls. -/
def run (heap : Heap) (t : Tracker) (calls : List Call) : Tracker := calls.foldl (call heap) t

/-- The handles whose tracking is asked for. -/
def Call.added : Call → List Handle
  | .add h => [h]
  | .addItems items => refsOf items
  | _ => []

/-- The handles referred to from outside the heap. -/
def Call.rooted : Call → List Handle
  | .addRoot item => item.ref?.toList
  | _ => []

def added (calls : List Call) : List Handle := calls.flatMap Call.added

def rooted (calls : List Call) : List Handle := calls.flatMap Call.rooted

/-- All handles that come from outside. -/
def starts (calls : List Call) : List Handle := added calls ++ rooted calls

theorem isTracked_iff : t.isTracked h ↔ h ∈ t.order := by
  rw [isTracked, id?, Roster.id?_eq, List.isSome_idxOf?, order]

/-! The order only grows at its end, so ids stay. -/

@[simp]
theorem order_enqueue : (t.enqueue h).order = t.order := by
  unfold enqueue
  split <;> rfl

theorem order_add : (t.add h).order = if h ∈ t.order then t.order else t.order ++ [h] := by
  unfold add
  simp only [isTracked_iff]
  by_cases hm : h ∈ t.order
  · simp [hm]
  · simp only [hm, if_false, order_enqueue]
    exact Roster.toList_add.trans (if_neg hm)

theorem mem_order_add : k ∈ (t.add h).order ↔ k ∈ t.order ∨ k = h := by
  rw [order_add]
  split
  · rename_i hm
    exact ⟨Or.inl, fun hk => hk.elim id fun he => he ▸ hm⟩
  · simp

theorem order_prefix_add : t.order <+: (t.add h).order := by
  rw [order_add]
  split
  · exact List.prefix_rfl
  · exact List.prefix_append _ _

theorem order_prefix_refer : t.order <+: (t.refer heap h).order := by
  unfold refer
  split
  · split
    · exact order_prefix_add
    · rw [order_enqueue]
      exact List.prefix_rfl
  · exact order_prefix_add

theorem order_prefix_foldl {α : Type} {f : Tracker → α → Tracker}
    (hf : ∀ t a, t.order <+: (f t a).order) (as : List α) (t : Tracker) :
    t.order <+: (as.foldl f t).order := by
  induction as generalizing t with
  | nil => exact List.prefix_rfl
  | cons a as ih => exact (hf t a).trans (ih _)

theorem order_prefix_expand : t.order <+: (t.expand heap h).order :=
  order_prefix_foldl (fun _ _ => order_prefix_refer) _ { t with expanded := t.expanded.insert h }

theorem order_prefix_close : t.order <+: (t.close heap).order := by
  fun_induction close heap t with
  | case1 => exact List.prefix_rfl
  | case2 t h rest _ _ ih => exact (order_prefix_expand (t := { t with queue := rest })).trans ih
  | case3 t h rest _ _ ih => exact ih

theorem order_prefix_call (c : Call) : t.order <+: (t.call heap c).order := by
  cases c with
  | add h => exact order_prefix_add
  | addItems items => exact order_prefix_foldl (fun _ _ => order_prefix_add) _ t
  | addRoot item =>
    cases hr : item.ref? with
    | none => simp [call, addRoot, hr]
    | some h => simpa [call, addRoot, hr] using order_prefix_refer
  | close => exact order_prefix_close

theorem order_prefix_run (calls more : List Call) :
    (run heap {} calls).order <+: (run heap {} (calls ++ more)).order := by
  rw [run, run, List.foldl_append]
  exact order_prefix_foldl (fun _ => order_prefix_call) more _

theorem id?_eq_some_iff {i : Nat} : t.id? h = some i ↔ t.order[i]? = some h :=
  Roster.id?_eq_some_iff

theorem length_order : t.order.length = t.size := Roster.length_toList

theorem id?_lt {i : Nat} (hi : t.id? h = some i) : i < t.size := by
  rw [← length_order]
  exact (List.getElem?_eq_some_iff.mp (id?_eq_some_iff.mp hi)).1

theorem exists_id? {i : Nat} (hi : i < t.size) : ∃ h, t.id? h = some i := by
  rw [← length_order] at hi
  exact ⟨t.order[i], id?_eq_some_iff.mpr (List.getElem?_eq_getElem hi)⟩

theorem map_id?_order : t.order.map t.id? = (List.range t.size).map some := by
  refine List.ext_getElem? fun i => ?_
  rw [List.getElem?_map, List.getElem?_map]
  by_cases hi : i < t.size
  · obtain ⟨h, hh⟩ := exists_id? hi
    simp [id?_eq_some_iff.mp hh, hh, hi]
  · simp [hi, length_order]

theorem id?_of_prefix {u : Tracker} {i : Nat} (hp : t.order <+: u.order)
    (hi : t.id? h = some i) : u.id? h = some i := by
  rw [id?_eq_some_iff] at hi ⊢
  obtain ⟨more, hm⟩ := hp
  rw [← hm, List.getElem?_append_left (List.getElem?_eq_some_iff.mp hi).1]
  exact hi

/-- The tracker is what comes of asking for some handles and noting some references, in whatever
order. What is known but not expanded yet waits in the queue, as far as it is stored. -/
structure Accounts (heap : Heap) (t : Tracker) (asked referred : List Handle) : Prop where
  tracked : ∀ h, h ∈ t.order ↔ h ∈ asked ∨ heap.threshold h ≤ referred.count h
  noted : ∀ h, h ∈ t.noted ↔ heap.isInlinable h ∧ h ∈ referred
  known : ∀ h < heap.size, h ∈ t.expanded ∨ h ∈ t.queue.toList ↔ h ∈ asked ∨ h ∈ referred

theorem accounts_empty : Accounts heap {} [] [] where
  tracked h := by simp [order, Roster.toList, Heap.threshold]; split <;> omega
  noted h := by simp
  known h _ := by simp [Queue.toList]

theorem Accounts.perm {others : List Handle} (ha : Accounts heap t asked referred)
    (hp : referred.Perm others) : Accounts heap t asked others where
  tracked h := by rw [ha.tracked, hp.count_eq]
  noted h := by rw [ha.noted, hp.mem_iff]
  known h hlt := by rw [ha.known h hlt, hp.mem_iff]

theorem mem_queue_enqueue :
    k ∈ (t.enqueue h).queue.toList ↔ k ∈ t.queue.toList ∨ k = h ∧ h ∉ t.expanded := by
  unfold enqueue
  split <;> simp_all

theorem known_enqueue :
    k ∈ (t.enqueue h).expanded ∨ k ∈ (t.enqueue h).queue.toList ↔
      (k ∈ t.expanded ∨ k ∈ t.queue.toList) ∨ k = h := by
  rw [expanded_enqueue, mem_queue_enqueue]
  by_cases hk : k = h
  · subst k
    by_cases hx : h ∈ t.expanded <;> simp [hx]
  · simp [hk]

@[simp]
theorem noted_enqueue : (t.enqueue h).noted = t.noted := by
  unfold enqueue
  split <;> rfl

@[simp]
theorem noted_add : (t.add h).noted = t.noted := by
  unfold add
  split <;> simp

theorem Accounts.mem_known (ha : Accounts heap t asked referred) (hm : h ∈ t.order) :
    h ∈ asked ∨ h ∈ referred := by
  refine ((ha.tracked h).mp hm).imp_right fun hc => ?_
  have : 0 < heap.threshold h := by unfold Heap.threshold; split <;> omega
  exact List.count_pos_iff.mp (by omega)

/-- Adding a handle puts it among what is known. -/
theorem Accounts.known_add (ha : Accounts heap t asked referred) (hlt : k < heap.size) :
    k ∈ (t.add h).expanded ∨ k ∈ (t.add h).queue.toList ↔
      (k ∈ asked ∨ k ∈ referred) ∨ k = h := by
  unfold add
  simp only [isTracked_iff]
  split
  · rename_i hm
    rw [ha.known k hlt]
    exact ⟨Or.inl, fun hk => hk.elim id fun he => he ▸ ha.mem_known hm⟩
  · exact known_enqueue.trans (or_congr_left (ha.known k hlt))

theorem accounts_add (ha : Accounts heap t asked referred) :
    Accounts heap (t.add h) (asked ++ [h]) referred where
  tracked k := by
    rw [mem_order_add, ha.tracked, List.mem_append, List.mem_singleton]
    tauto
  noted k := by rw [noted_add, ha.noted]
  known k hlt := by
    rw [ha.known_add hlt, List.mem_append, List.mem_singleton]
    tauto

theorem Accounts.noted_append (ha : Accounts heap t asked referred)
    (hn : heap.isInlinable h → h ∈ referred) (k : Handle) :
    k ∈ t.noted ↔ heap.isInlinable k ∧ k ∈ referred ++ [h] := by
  rw [ha.noted, List.mem_append, List.mem_singleton]
  by_cases hk : k = h
  · subst k
    tauto
  · simp [hk]

/-- A reference that reaches the threshold tracks the object. -/
theorem accounts_refer_add (ha : Accounts heap t asked referred)
    (hc : heap.threshold h ≤ referred.count h + 1) (hn : heap.isInlinable h → h ∈ referred) :
    Accounts heap (t.add h) asked (referred ++ [h]) where
  tracked k := by
    rw [mem_order_add, ha.tracked, List.count_append]
    by_cases hk : k = h
    · subst k
      simp [hc]
    · simp [hk, Ne.symm hk]
  noted k := by rw [noted_add, ha.noted_append hn]
  known k hlt := by
    rw [ha.known_add hlt, List.mem_append, List.mem_singleton]
    tauto

/-- The first reference to an object that can be written in place. -/
theorem accounts_refer_note (ha : Accounts heap t asked referred) (hi : heap.isInlinable h)
    (hn : h ∉ referred) :
    Accounts heap ({ t with noted := t.noted.insert h }.enqueue h) asked (referred ++ [h]) where
  tracked k := by
    rw [order_enqueue]
    refine (ha.tracked k).trans (or_congr_right ?_)
    rw [List.count_append]
    by_cases hk : k = h
    · subst k
      simp [List.count_eq_zero.mpr hn, Heap.threshold, hi]
    · simp [Ne.symm hk]
  noted k := by
    rw [noted_enqueue, List.mem_append, List.mem_singleton]
    by_cases hk : k = h
    · subst k
      simp [hi]
    · simp [ha.noted, hk, Ne.symm hk]
  known k hlt := by
    refine known_enqueue.trans ?_
    rw [List.mem_append, List.mem_singleton, ← or_assoc]
    exact or_congr_left (ha.known k hlt)

theorem accounts_refer (ha : Accounts heap t asked referred) :
    Accounts heap (t.refer heap h) asked (referred ++ [h]) := by
  unfold refer
  by_cases hi : heap.isInlinable h
  · rw [if_pos (by exact hi)]
    by_cases hn : h ∈ referred
    · rw [if_pos ((ha.noted h).mpr ⟨hi, hn⟩)]
      refine accounts_refer_add ha ?_ fun _ => hn
      have := List.count_pos_iff.mpr hn
      simp only [Heap.threshold, hi, if_true]
      omega
    · rw [if_neg fun hm => hn ((ha.noted h).mp hm).2]
      exact accounts_refer_note ha hi hn
  · rw [if_neg (by exact hi)]
    exact accounts_refer_add ha (by simp [Heap.threshold, hi]) fun h => absurd h hi

theorem accounts_foldl_add (hs : List Handle) (ha : Accounts heap t asked referred) :
    Accounts heap (hs.foldl add t) (asked ++ hs) referred := by
  induction hs generalizing t asked with
  | nil => simpa using ha
  | cons h hs ih => simpa using ih (accounts_add (h := h) ha)

theorem accounts_foldl_refer (hs : List Handle) (ha : Accounts heap t asked referred) :
    Accounts heap (hs.foldl (refer heap) t) asked (referred ++ hs) := by
  induction hs generalizing t referred with
  | nil => simpa using ha
  | cons h hs ih => simpa using ih (accounts_refer (h := h) ha)

/-- What has been noted comes from outside and, once each, from the expanded objects. -/
structure Ledger (heap : Heap) (t : Tracker) (asked roots done : List Handle) : Prop where
  nodup : done.Nodup
  lt : ∀ h ∈ done, h < heap.size
  expanded : ∀ h, h ∈ t.expanded ↔ h ∈ done
  accounts : Accounts heap t asked (roots ++ done.flatMap heap.refs)
  reach : ∀ h ∈ done, heap.Reach (asked ++ roots) h

section

variable {roots done : List Handle}

theorem Ledger.reach_of_known (hl : Ledger heap t asked roots done) (hlt : h < heap.size)
    (hk : h ∈ t.expanded ∨ h ∈ t.queue.toList) : heap.Reach (asked ++ roots) h := by
  rcases (hl.accounts.known h hlt).mp hk with ha | hr
  · exact .start (List.mem_append_left _ ha)
  · rcases List.mem_append.mp hr with hr | hr
    · exact .start (List.mem_append_right _ hr)
    · obtain ⟨g, hg, hh⟩ := List.mem_flatMap.mp hr
      exact .step (hl.reach g hg) hh

/-- Taking an expanded object out of the queue changes nothing that counts, nor does a handle that
dangles. -/
theorem ledger_skip {rest : Queue Handle} (hl : Ledger heap t asked roots done)
    (hq : t.queue.toList = h :: rest.toList) (hx : h < heap.size → h ∈ t.expanded) :
    Ledger heap { t with queue := rest } asked roots done where
  nodup := hl.nodup
  lt := hl.lt
  expanded := hl.expanded
  accounts := {
    tracked := hl.accounts.tracked
    noted := hl.accounts.noted
    known := fun k hlt => by
      rw [← hl.accounts.known k hlt, hq, List.mem_cons]
      by_cases hk : k = h
      · subst k
        simp [hx hlt]
      · simp [hk] }
  reach := hl.reach

theorem ledger_expand {rest : Queue Handle} (hl : Ledger heap t asked roots done)
    (hq : t.queue.toList = h :: rest.toList) (hlt : h < heap.size) (hx : h ∉ t.expanded) :
    Ledger heap ({ t with queue := rest }.expand heap h) asked roots (done ++ [h]) where
  nodup := by
    have hd : h ∉ done := fun hm => hx ((hl.expanded h).mpr hm)
    simpa using hl.nodup.concat hd
  lt k hk := by
    rcases List.mem_append.mp hk with hk | hk
    · exact hl.lt k hk
    · rwa [List.mem_singleton.mp hk]
  expanded k := by
    simp only [expanded_expand, Std.TreeSet.mem_insert, compare_eq_iff_eq, hl.expanded,
      List.mem_append, List.mem_singleton]
    rw [or_comm, eq_comm]
  accounts := by
    have hopen : Accounts heap { t with queue := rest, expanded := t.expanded.insert h } asked
        (roots ++ done.flatMap heap.refs) := {
      tracked := hl.accounts.tracked
      noted := hl.accounts.noted
      known := fun k hk => by
        rw [← hl.accounts.known k hk, hq, List.mem_cons]
        by_cases hk : k = h
        · subst k
          simp
        · simp [hk, Ne.symm hk] }
    simpa [expand] using accounts_foldl_refer (heap.refs h) hopen
  reach k hk := by
    rcases List.mem_append.mp hk with hk | hk
    · exact hl.reach k hk
    · rw [List.mem_singleton.mp hk]
      exact hl.reach_of_known hlt (Or.inr (by simp [hq]))

theorem ledger_close (hl : Ledger heap t asked roots done) :
    ∃ all, Ledger heap (t.close heap) asked roots all ∧ (t.close heap).queue.toList = [] := by
  fun_induction close heap t generalizing done with
  | case1 t hq => exact ⟨done, hl, Queue.pop?_eq_none_iff.mp hq⟩
  | case2 t h rest hq hn ih =>
    exact ih (ledger_expand hl (Queue.toList_eq_cons_of_pop? hq) hn.1 hn.2)
  | case3 t h rest hq hn ih =>
    have hx : h < heap.size → h ∈ t.expanded := fun hlt => by simpa [hlt] using hn
    exact ih (ledger_skip hl (Queue.toList_eq_cons_of_pop? hq) hx)

theorem ledger_empty : Ledger heap {} [] [] [] where
  nodup := List.nodup_nil
  lt h hh := by cases hh
  expanded h := by simp
  accounts := accounts_empty
  reach h hh := by cases hh

/-- What comes from outside is accounted for without expanding anything. -/
theorem Ledger.outside {u : Tracker} (hl : Ledger heap t asked roots done) (as rs : List Handle)
    (hx : u.expanded = t.expanded)
    (ha : Accounts heap u (asked ++ as) ((roots ++ done.flatMap heap.refs) ++ rs)) :
    Ledger heap u (asked ++ as) (roots ++ rs) done where
  nodup := hl.nodup
  lt := hl.lt
  expanded h := by rw [hx, hl.expanded]
  accounts := by
    refine ha.perm ?_
    rw [List.append_assoc, List.append_assoc]
    exact List.Perm.append_left _ List.perm_append_comm
  reach h hh := by
    refine (hl.reach h hh).mono fun k hk => ?_
    simp only [List.mem_append] at hk ⊢
    tauto

theorem expanded_foldl_add (hs : List Handle) : (hs.foldl add t).expanded = t.expanded := by
  induction hs generalizing t with
  | nil => rfl
  | cons h hs ih => simp [ih]

theorem ledger_addItems (items : List Item) (hl : Ledger heap t asked roots done) :
    Ledger heap (t.addItems items) (asked ++ refsOf items) roots done := by
  have ha := accounts_foldl_add (refsOf items) hl.accounts
  simpa [addItems] using
    hl.outside (refsOf items) [] (expanded_foldl_add (refsOf items)) (by simpa using ha)

theorem ledger_addRoot (item : Item) (hl : Ledger heap t asked roots done) :
    Ledger heap (t.addRoot heap item) asked (roots ++ item.ref?.toList) done := by
  cases hr : item.ref? with
  | none => simpa [addRoot, hr] using hl
  | some h =>
    have ha := accounts_refer (h := h) hl.accounts
    simpa [addRoot, hr] using hl.outside [] [h] expanded_refer (by simpa using ha)

end

theorem ledger_run (heap : Heap) (calls : List Call) :
    ∃ done, Ledger heap (run heap {} calls) (added calls) (rooted calls) done := by
  induction calls using List.reverseRecOn with
  | nil => exact ⟨[], ledger_empty⟩
  | append_singleton calls c ih =>
    obtain ⟨done, hl⟩ := ih
    have hrun : run heap {} (calls ++ [c]) = (run heap {} calls).call heap c := by
      simp [run, List.foldl_append]
    rw [hrun]
    cases c with
    | add h =>
      have := ledger_addItems [.ref h] hl
      exact ⟨done, by simpa [added, rooted, Call.added, Call.rooted, call, addItems, refsOf,
        Item.ref?] using this⟩
    | addItems items =>
      have := ledger_addItems items hl
      exact ⟨done, by simpa [added, rooted, Call.added, Call.rooted, call] using this⟩
    | addRoot item =>
      have := ledger_addRoot item hl
      exact ⟨done, by simpa [added, rooted, Call.added, Call.rooted, call] using this⟩
    | close =>
      obtain ⟨all, hall, _⟩ := ledger_close hl
      exact ⟨all, by simpa [added, rooted, Call.added, Call.rooted, call] using hall⟩

open Classical in
/-- The references to an object: from outside, and from the objects that can be reached. -/
noncomputable def references (heap : Heap) (calls : List Call) (h : Handle) : Nat :=
  (rooted calls).count h +
    ∑ g ∈ Finset.range heap.size with heap.Reach (starts calls) g, (heap.refs g).count h

theorem le_references {calls : List Call} {g : Handle} (hg : g < heap.size)
    (hr : heap.Reach (starts calls) g) :
    (rooted calls).count h + (heap.refs g).count h ≤ references heap calls h := by
  classical
  refine Nat.add_le_add_left ?_ _
  exact Finset.single_le_sum (f := fun g => (heap.refs g).count h) (fun _ _ => Nat.zero_le _)
    (Finset.mem_filter.mpr ⟨Finset.mem_range.mpr hg, hr⟩)

/-- When the queue is empty, exactly what can be reached has been expanded, as far as it is
stored. -/
theorem Ledger.mem_done_iff {roots done : List Handle} (hl : Ledger heap t asked roots done)
    (hq : t.queue.toList = []) :
    h ∈ done ↔ heap.Reach (asked ++ roots) h ∧ h < heap.size := by
  have hknown : ∀ k < heap.size, k ∈ done ↔ k ∈ asked ∨ k ∈ roots ++ done.flatMap heap.refs := by
    intro k hlt
    rw [← hl.accounts.known k hlt, hq, hl.expanded]
    simp
  constructor
  · exact fun hh => ⟨hl.reach h hh, hl.lt h hh⟩
  · rintro ⟨hr, hlt⟩
    refine hr.mem_of_closed (p := fun k => k < heap.size → k ∈ done) ?_ ?_ hlt
    · intro k hk hlt
      rw [hknown k hlt, List.mem_append]
      exact (List.mem_append.mp hk).imp_right Or.inl
    · intro g hg k hk hlt
      have hgd : g ∈ done := hg (Heap.lt_of_mem_refs hk)
      rw [hknown k hlt, List.mem_append]
      exact Or.inr (Or.inr (List.mem_flatMap.mpr ⟨g, hgd, hk⟩))

/-- All that can be reached is asked for or referred to, handles that dangle included. -/
theorem Ledger.reach_iff {roots done : List Handle} (hl : Ledger heap t asked roots done)
    (hq : t.queue.toList = []) :
    heap.Reach (asked ++ roots) h ↔ h ∈ asked ∨ h ∈ roots ++ done.flatMap heap.refs := by
  rw [List.mem_append, List.mem_flatMap, ← or_assoc]
  constructor
  · intro hr
    cases hr with
    | start hh => exact Or.inl (List.mem_append.mp hh)
    | @step g _ hr hh => exact Or.inr ⟨g, (hl.mem_done_iff hq).mpr ⟨hr, Heap.lt_of_mem_refs hh⟩, hh⟩
  · rintro (hh | ⟨g, hg, hh⟩)
    · exact .start (List.mem_append.mpr hh)
    · exact .step (hl.reach g hg) hh

theorem Ledger.count_eq {roots done : List Handle} {s : Finset Handle}
    (hl : Ledger heap t asked roots done) (hs : ∀ g, g ∈ s ↔ g ∈ done) :
    (roots ++ done.flatMap heap.refs).count h = roots.count h + ∑ g ∈ s, (heap.refs g).count h := by
  have : s = done.toFinset := by
    ext g
    rw [hs, List.mem_toFinset]
  rw [List.count_append, this, List.sum_toFinset _ hl.nodup, List.count_flatMap]
  rfl

theorem ledger_run_close (heap : Heap) (calls : List Call) :
    ∃ done, Ledger heap (run heap {} (calls ++ [.close])) (added calls) (rooted calls) done ∧
      (run heap {} (calls ++ [.close])).queue.toList = [] := by
  obtain ⟨done, hl⟩ := ledger_run heap calls
  have hrun : run heap {} (calls ++ [.close]) = (run heap {} calls).close heap := by
    simp [run, List.foldl_append, call]
  rw [hrun]
  exact ledger_close hl

theorem mem_order_run_close (hc : heap.Closed) (calls : List Call)
    (hs : ∀ h ∈ starts calls, h < heap.size) :
    h ∈ (run heap {} (calls ++ [.close])).order ↔
      heap.Reach (starts calls) h ∧
        (h ∈ added calls ∨ ¬ heap.isInlinable h ∨ 2 ≤ references heap calls h) := by
  classical
  obtain ⟨done, hl, hq⟩ := ledger_run_close heap calls
  have hdone (g : Handle) : g ∈ done ↔ heap.Reach (starts calls) g := by
    rw [hl.mem_done_iff hq]
    exact ⟨And.left, fun hr => ⟨hr, hr.lt hc hs⟩⟩
  have hcount := hl.count_eq (h := h)
    (s := {g ∈ Finset.range heap.size | heap.Reach (starts calls) g}) fun g => by
      rw [hdone, Finset.mem_filter, Finset.mem_range]
      exact ⟨And.right, fun hr => ⟨hr.lt hc hs, hr⟩⟩
  change _ = references heap calls h at hcount
  have hpos : heap.Reach (starts calls) h ↔ h ∈ added calls ∨ 0 < references heap calls h := by
    rw [← hcount, List.count_pos_iff]
    exact hl.reach_iff hq
  rw [hl.accounts.tracked, hcount, hpos]
  unfold Heap.threshold
  split
  · rename_i hi
    simp only [hi, not_true, false_or]
    constructor
    · rintro (ha | h2)
      · exact ⟨Or.inl ha, Or.inl ha⟩
      · exact ⟨Or.inr (by omega), Or.inr h2⟩
    · exact And.right
  · rename_i hi
    simp only [hi]
    tauto

/-- Tracking is exact, whatever the order of the calls: an object is tracked if it can be reached
and was asked for, or cannot be written in place, or is referred to twice. The ids count the tracked
objects, and an id that was given stays. -/
theorem run_close_tracked (hc : heap.Closed) (calls : List Call)
    (hs : ∀ h ∈ starts calls, h < heap.size) :
    (∀ h, (run heap {} (calls ++ [.close])).isTracked h ↔
      heap.Reach (starts calls) h ∧
        (h ∈ added calls ∨ ¬ heap.isInlinable h ∨ 2 ≤ references heap calls h)) ∧
    (∀ h, (run heap {} (calls ++ [.close])).isTracked h →
      ∃! i, i < (run heap {} (calls ++ [.close])).size ∧
        (run heap {} (calls ++ [.close])).id? h = some i) ∧
    (∀ i < (run heap {} (calls ++ [.close])).size,
      ∃! h, (run heap {} (calls ++ [.close])).id? h = some i) ∧
    (∀ pre mid post, calls ++ [.close] = pre ++ mid ++ post → ∀ h i,
      (run heap {} pre).id? h = some i → (run heap {} (pre ++ mid)).id? h = some i) := by
  refine ⟨?_, ?_, ?_, ?_⟩
  · intro h
    rw [isTracked_iff]
    exact mem_order_run_close hc calls hs
  · intro h hh
    obtain ⟨i, hi⟩ := Option.isSome_iff_exists.mp hh
    refine ⟨i, ⟨id?_lt hi, hi⟩, ?_⟩
    rintro j ⟨_, hj⟩
    exact Option.some.inj (hj.symm.trans hi)
  · intro i hi
    obtain ⟨h, hh⟩ := exists_id? hi
    refine ⟨h, hh, fun k hk => ?_⟩
    rw [id?_eq_some_iff] at hh hk
    exact Option.some.inj (hk.symm.trans hh)
  · intro pre mid post _ h i
    exact id?_of_prefix (order_prefix_run pre mid)

/-- A sequence that holds itself is referred to twice when one call names it. -/
theorem run_close_tracked_self :
    (Heap.mk #[.seq [.ref 0, .ref 1], .seq []]).Closed ∧
    (∀ h ∈ starts [.addRoot (.ref 0), .close, .addItems [.ref 1]], h < 2) ∧
    (run ⟨#[.seq [.ref 0, .ref 1], .seq []]⟩ {}
      [.addRoot (.ref 0), .close, .addItems [.ref 1], .close]).isTracked 0 := by
  have hc : (Heap.mk #[.seq [.ref 0, .ref 1], .seq []]).Closed := by decide
  have hs : ∀ h ∈ starts [.addRoot (.ref 0), .close, .addItems [.ref 1]], h < 2 := by decide
  refine ⟨hc, hs, ((run_close_tracked hc _ hs).1 0).mpr ⟨.start (by decide), .inr (.inr ?_)⟩⟩
  exact le_trans (by decide : 2 ≤ _) (le_references (g := 0) (by decide) (.start (by decide)))

end Tracker

end Comptime
