import Comptime.Emit.Companion
import Comptime.Proofs.Tracking

/-! The walk that orders the bindings lists every tracked object exactly once. -/
namespace Comptime.Output

variable {out : Output} {seen : HandleSet} {tasks : List Task} {stack : List Handle} {h k : Handle}

theorem isTracked_of_mem_requires (hk : k ∈ out.requires seen stack) :
    out.tracker.isTracked k := by
  fun_induction out.requires seen stack with
  | case1 => cases hk
  | case2 seen h stack next ih =>
    rcases List.mem_append.mp hk with hk | hk
    · exact (List.mem_filter.mp hk).2
    · exact ih hk

theorem isTracked_of_mem_dependencies (hk : k ∈ out.dependencies h) : out.tracker.isTracked k :=
  isTracked_of_mem_requires hk

def Task.target : Task → Handle
  | .enter h | .leave h => h

/-- The objects that were entered and not left yet. -/
def leaving (tasks : List Task) : List Handle :=
  tasks.filterMap fun | .leave h => some h | .enter _ => none

@[simp]
theorem leaving_enter : leaving (.enter h :: tasks) = leaving tasks := rfl

@[simp]
theorem leaving_leave : leaving (.leave h :: tasks) = h :: leaving tasks := rfl

theorem leaving_append_enter (hs : List Handle) :
    leaving (hs.map .enter ++ tasks) = leaving tasks := by
  induction hs with
  | nil => rfl
  | cons h hs ih => exact ih

theorem mem_visit_of_leave (hm : .leave h ∈ tasks) : h ∈ out.visit seen tasks := by
  fun_induction out.visit seen tasks with
  | case1 => cases hm
  | case2 seen g tasks ih =>
    rcases List.mem_cons.mp hm with he | hm
    · cases he
      exact List.mem_cons_self
    · exact List.mem_cons_of_mem _ (ih hm)
  | case3 seen g tasks _ ih =>
    rcases List.mem_cons.mp hm with he | hm
    · cases he
    · exact ih (List.mem_append_right _ (List.mem_cons_of_mem _ hm))
  | case4 seen g tasks _ ih =>
    rcases List.mem_cons.mp hm with he | hm
    · cases he
    · exact ih hm

/-- What is still to be entered and was not seen is listed in the end. -/
theorem mem_visit_of_enter (hm : .enter h ∈ tasks) (hlt : h < out.heap.size) (hn : h ∉ seen) :
    h ∈ out.visit seen tasks := by
  fun_induction out.visit seen tasks with
  | case1 => cases hm
  | case2 seen g tasks ih =>
    rcases List.mem_cons.mp hm with he | hm
    · cases he
    · exact List.mem_cons_of_mem _ (ih hm hn)
  | case3 seen g tasks _ ih =>
    by_cases hg : h = g
    · subst g
      exact mem_visit_of_leave (List.mem_append_right _ List.mem_cons_self)
    · rcases List.mem_cons.mp hm with he | hm
      · cases he
        exact absurd rfl hg
      · exact ih (List.mem_append_right _ (List.mem_cons_of_mem _ hm)) (by simp [hn, Ne.symm hg])
  | case4 seen g tasks hg ih =>
    rcases List.mem_cons.mp hm with he | hm
    · cases he
      exact absurd ⟨hlt, hn⟩ hg
    · exact ih hm hn

theorem target_of_mem_visit {p : Handle → Prop} (hp : ∀ t ∈ tasks, p t.target)
    (hd : ∀ g, p g → ∀ k ∈ out.dependencies g, p k) (hk : k ∈ out.visit seen tasks) : p k := by
  fun_induction out.visit seen tasks with
  | case1 => cases hk
  | case2 seen g tasks ih =>
    rcases List.mem_cons.mp hk with rfl | hk
    · exact hp (.leave k) List.mem_cons_self
    · exact ih (fun t ht => hp t (List.mem_cons_of_mem _ ht)) hk
  | case3 seen g tasks _ ih =>
    have hg : p g := hp (.enter g) List.mem_cons_self
    refine ih (fun t ht => ?_) hk
    rcases List.mem_append.mp ht with ht | ht
    · obtain ⟨d, hd', rfl⟩ := List.mem_map.mp ht
      exact hd g hg d hd'
    · rcases List.mem_cons.mp ht with rfl | ht
      · exact hg
      · exact hp t (List.mem_cons_of_mem _ ht)
  | case4 seen g tasks _ ih => exact ih (fun t ht => hp t (List.mem_cons_of_mem _ ht)) hk

/-- The objects being left are seen, so none is entered a second time. -/
theorem nodup_visit (hl : (leaving tasks).Nodup) (hs : ∀ h ∈ leaving tasks, h ∈ seen) :
    (out.visit seen tasks).Nodup ∧
      ∀ h ∈ out.visit seen tasks, h ∈ leaving tasks ∨ h ∉ seen := by
  fun_induction out.visit seen tasks with
  | case1 => exact ⟨List.nodup_nil, fun h hh => by cases hh⟩
  | case2 seen g tasks ih =>
    rw [leaving_leave, List.nodup_cons] at hl
    rw [leaving_leave] at hs
    obtain ⟨hnodup, hmem⟩ := ih hl.2 fun h hh => hs h (List.mem_cons_of_mem _ hh)
    refine ⟨List.nodup_cons.mpr ⟨fun hg => ?_, hnodup⟩, fun h hh => ?_⟩
    · rcases hmem g hg with hg | hg
      · exact hl.1 hg
      · exact hg (hs g List.mem_cons_self)
    · rw [leaving_leave, List.mem_cons]
      rcases List.mem_cons.mp hh with rfl | hh
      · exact Or.inl (Or.inl rfl)
      · exact (hmem h hh).imp_left Or.inr
  | case3 seen g tasks hg ih =>
    rw [leaving_append_enter, leaving_leave, List.nodup_cons] at ih
    rw [leaving_enter] at hl hs ⊢
    obtain ⟨hnodup, hmem⟩ := ih ⟨fun hm => hg.2 (hs g hm), hl⟩ fun h hh => by
      rcases List.mem_cons.mp hh with rfl | hh
      · simp
      · simp [hs h hh]
    refine ⟨hnodup, fun h hh => ?_⟩
    rcases hmem h hh with hh | hh
    · rcases List.mem_cons.mp hh with rfl | hh
      · exact Or.inr hg.2
      · exact Or.inl hh
    · exact Or.inr fun hm => hh (by simp [hm])
  | case4 seen g tasks _ ih => exact ih hl hs

theorem nodup_order : out.order.Nodup := by
  refine (nodup_visit ?_ ?_).1 <;> rw [← List.append_nil (List.map _ _), leaving_append_enter]
  · exact List.nodup_nil
  · intro h hh
    cases hh

theorem lt_of_mem_visit (hl : ∀ h ∈ leaving tasks, h < out.heap.size)
    (hh : h ∈ out.visit seen tasks) : h < out.heap.size := by
  fun_induction out.visit seen tasks with
  | case1 => cases hh
  | case2 seen g tasks ih =>
    rw [leaving_leave, List.forall_mem_cons] at hl
    rcases List.mem_cons.mp hh with rfl | hh
    · exact hl.1
    · exact ih hl.2 hh
  | case3 seen g tasks hg ih =>
    rw [leaving_append_enter, leaving_leave, List.forall_mem_cons] at ih
    exact ih ⟨hg.1, hl⟩ hh
  | case4 seen g tasks _ ih => exact ih hl hh

/-- Only stored objects are bound, -/
theorem lt_of_mem_order (hh : h ∈ out.order) : h < out.heap.size := by
  refine lt_of_mem_visit ?_ hh
  rw [← List.append_nil (List.map _ _), leaving_append_enter]
  intro k hk
  cases hk

/-- and only tracked ones. -/
theorem mem_tracker_order (hh : h ∈ out.order) : h ∈ out.tracker.order := by
  refine target_of_mem_visit (p := (· ∈ out.tracker.order)) ?_ ?_ hh
  · intro t ht
    obtain ⟨g, hg, rfl⟩ := List.mem_map.mp ht
    exact hg
  · intro g _ k hk
    exact Tracker.isTracked_iff.mp (isTracked_of_mem_dependencies hk)

theorem mem_order (hh : h ∈ out.tracker.order) (hlt : h < out.heap.size) : h ∈ out.order :=
  mem_visit_of_enter (List.mem_map_of_mem hh) hlt (by simp)

theorem mem_order_iff (hr : ∀ h ∈ out.tracker.order, h < out.heap.size) :
    h ∈ out.order ↔ h ∈ out.tracker.order :=
  ⟨mem_tracker_order, fun hh => mem_order hh (hr h hh)⟩

/-- The bindings come in an order of their own, one for each tracked object. -/
theorem order_perm (hr : ∀ h ∈ out.tracker.order, h < out.heap.size) :
    out.order.Perm out.tracker.order :=
  (List.perm_ext_iff_of_nodup nodup_order Roster.nodup_toList).mpr fun _ => mem_order_iff hr

end Comptime.Output
