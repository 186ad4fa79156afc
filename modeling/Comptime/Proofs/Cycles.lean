import Comptime.Proofs.Patching

/-! Patches and cycles. The walk that orders the bindings goes along the references that are read
while objects are built. A reference to an object that is not bound yet goes back to one that the
walk has entered and not left, so it closes a cycle; and no order does without patches if there is
one. -/
namespace Comptime.Output

open Relation

variable {out : Output} {seen : HandleSet} {stack : List Handle} {tasks pre post : List Task}
  {d h k r : Handle}

section Dependencies

theorem mem_needs : d ∈ out.needs h ↔
    ∃ (i : Nat) (place : Place), (out.heap.children h)[i]? = some (place, .ref d) ∧
      place.isDeferred = false := by
  simp only [needs, refsOf, List.mem_filterMap, List.mem_map, List.mem_filter]
  constructor
  · rintro ⟨x, ⟨⟨place, y⟩, ⟨hc, hp⟩, rfl⟩, hx⟩
    cases y <;> cases hx
    obtain ⟨i, hi⟩ := List.mem_iff_getElem?.mp hc
    exact ⟨i, place, hi, by simpa using hp⟩
  · rintro ⟨i, place, hi, hp⟩
    exact ⟨.ref d, ⟨(place, .ref d), ⟨List.mem_of_getElem? hi, by simpa using hp⟩, rfl⟩, rfl⟩

theorem mem_refs_of_mem_needs (hd : d ∈ out.needs h) : d ∈ out.heap.refs h := by
  obtain ⟨i, place, hi, -⟩ := mem_needs.mp hd
  exact List.mem_filterMap.mpr ⟨.ref d, List.mem_map_of_mem (List.mem_of_getElem? hi), rfl⟩

/-- The second object is built in place, as part of the first. -/
def BuiltIn (out : Output) (h k : Handle) : Prop :=
  k ∈ out.needs h ∧ out.tracker.isTracked k = false

/-- The second object has a binding, which is read while the first is built. -/
def Reads (out : Output) (h d : Handle) : Prop := ∃ steps path, out.Leads h steps path d

theorem Reads.isTracked (hr : out.Reads h d) : out.tracker.isTracked d := by
  obtain ⟨steps, path, hl⟩ := hr
  induction hl with
  | last _ _ ht => exact ht
  | through _ _ _ _ ih => exact ih

theorem reads_of_mem_needs (hd : d ∈ out.needs h) (ht : out.tracker.isTracked d) :
    out.Reads h d := by
  obtain ⟨i, place, hi, hp⟩ := mem_needs.mp hd
  exact ⟨[i], [place], .last hi hp ht⟩

theorem Reads.through (hk : out.BuiltIn h k) (hr : out.Reads k d) : out.Reads h d := by
  obtain ⟨i, place, hi, hp⟩ := mem_needs.mp hk.1
  obtain ⟨steps, path, hl⟩ := hr
  exact ⟨i :: steps, place :: path, .through hi hp hk.2 hl⟩

/-- A reference that is read stands in some object that is built in place. -/
theorem Reads.exists_builtIn (hr : out.Reads h d) :
    ∃ k, ReflTransGen out.BuiltIn h k ∧ d ∈ out.needs k := by
  obtain ⟨steps, path, hl⟩ := hr
  induction hl with
  | @last h _ _ _ hi hp _ => exact ⟨h, .refl, mem_needs.mpr ⟨_, _, hi, hp⟩⟩
  | through hi hp hn _ ih =>
    obtain ⟨k, hk, hd⟩ := ih
    exact ⟨k, .head ⟨mem_needs.mpr ⟨_, _, hi, hp⟩, hn⟩ hk, hd⟩

theorem reads_of_mem_requires (hd : d ∈ out.requires seen stack) :
    ∃ h ∈ stack, out.Reads h d := by
  fun_induction out.requires seen stack with
  | case1 => cases hd
  | case2 seen h stack next ih =>
    rcases List.mem_append.mp hd with hd | hd
    · obtain ⟨hd, ht⟩ := List.mem_filter.mp hd
      exact ⟨h, List.mem_cons_self, reads_of_mem_needs hd ht⟩
    · obtain ⟨g, hg, hr⟩ := ih hd
      rcases List.mem_append.mp hg with hg | hg
      · obtain ⟨hg, hn⟩ := List.mem_filter.mp (mem_of_mem_pick (List.mem_reverse.mp hg))
        exact ⟨h, List.mem_cons_self, hr.through ⟨hg, by simpa using hn⟩⟩
      · exact ⟨g, List.mem_cons_of_mem h hg, hr⟩

/-- The objects that the search looks into hold what is built in them, unless it was seen before,
and what they need is found. -/
theorem exists_searched (hc : out.heap.Closed) (seen : HandleSet) (stack : List Handle) :
    ∃ all : List Handle, (∀ h ∈ stack, h ∈ all) ∧
      (∀ h ∈ all, ∀ k, out.BuiltIn h k → k ∈ all ∨ k ∈ seen) ∧
      ∀ h ∈ all, ∀ d ∈ out.needs h, out.tracker.isTracked d → d ∈ out.requires seen stack := by
  fun_induction out.requires seen stack with
  | case1 seen => exact ⟨[], by simp, by simp, by simp⟩
  | case2 seen h stack next ih =>
    obtain ⟨all, hstack, hclosed, hfound⟩ := ih
    have hnext : ∀ k, k ∈ next.1 → k ∈ all := fun k hk =>
      hstack k (List.mem_append_left _ (List.mem_reverse.mpr hk))
    refine ⟨h :: all, ?_, ?_, ?_⟩
    · intro g hg
      rcases List.mem_cons.mp hg with rfl | hg
      · exact List.mem_cons_self
      · exact List.mem_cons_of_mem h (hstack g (List.mem_append_right _ hg))
    · intro g hg k hk
      rcases List.mem_cons.mp hg with rfl | hg
      · have hwanted : k ∈ (out.needs g).filter fun d => !out.tracker.isTracked d :=
          List.mem_filter.mpr ⟨hk.1, by simp [hk.2]⟩
        have hpick : k ∈ next.1 ∨ k ∈ seen :=
          mem_pick_of_mem hwanted (hc.lt (mem_refs_of_mem_needs hk.1))
        rcases hpick with hp | hs
        · exact Or.inl (List.mem_cons_of_mem g (hnext k hp))
        · exact Or.inr hs
      · rcases hclosed g hg k hk with hk | hk
        · exact Or.inl (List.mem_cons_of_mem h hk)
        · rcases mem_pick_seen.mp hk with hk | hk
          · exact Or.inl (List.mem_cons_of_mem h (hnext k hk))
          · exact Or.inr hk
    · intro g hg d hd ht
      rcases List.mem_cons.mp hg with rfl | hg
      · exact List.mem_append_left _ (List.mem_filter.mpr ⟨hd, ht⟩)
      · exact List.mem_append_right _ (hfound g hg d hd ht)

/-- The dependencies of an object are the bindings that are read while it is built. -/
theorem mem_dependencies_iff (hc : out.heap.Closed) : d ∈ out.dependencies h ↔ out.Reads h d := by
  constructor
  · intro hd
    obtain ⟨g, hg, hr⟩ := reads_of_mem_requires hd
    rwa [List.mem_singleton.mp hg] at hr
  · intro hr
    obtain ⟨all, hstack, hclosed, hfound⟩ := exists_searched hc {} [h]
    obtain ⟨k, hk, hd⟩ := hr.exists_builtIn
    have hall : ∀ k, ReflTransGen out.BuiltIn h k → k ∈ all := by
      intro k hk
      induction hk with
      | refl => exact hstack h (List.mem_singleton_self h)
      | tail _ hk ih => exact (hclosed _ ih _ hk).resolve_right (by simp)
    exact hfound k (hall k hk) d hd hr.isTracked

theorem Reads.lt (hc : out.heap.Closed) (hr : out.Reads h d) : d < out.heap.size := by
  obtain ⟨k, -, hd⟩ := hr.exists_builtIn
  exact hc.lt (mem_refs_of_mem_needs hd)

end Dependencies

section Walk

theorem mem_leaving : h ∈ leaving tasks ↔ .leave h ∈ tasks := by
  induction tasks with
  | nil => simp [leaving]
  | cons t tasks ih => cases t <;> simp [ih]

/-- What comes before the end of an object in the walk hangs on that object. -/
def Hanging (out : Output) (tasks : List Task) : Prop :=
  tasks.Pairwise fun t u => ∀ h, u = .leave h → ReflTransGen out.Reads h t.target

/-- When the walk comes to the end of an object, all that the object reads is known: it is known
from the start, or it has been entered. -/
def Ready (out : Output) : (Handle → Prop) → List Task → Prop
  | _, [] => True
  | known, .enter h :: tasks => Ready out (fun k => known k ∨ k = h) tasks
  | known, .leave h :: tasks => (∀ d, out.Reads h d → known d) ∧ Ready out known tasks

theorem hanging_enter_all (hs : List Handle) : out.Hanging (hs.map .enter) := by
  refine List.pairwise_map.mpr (List.pairwise_of_forall fun h k g hg => ?_)
  cases hg

theorem Hanging.leave (ht : out.Hanging (.leave r :: tasks)) (hm : .leave d ∈ tasks) :
    ReflTransGen out.Reads d r :=
  (List.pairwise_cons.mp ht).1 _ hm d rfl

/-- Entering an object puts what it reads in front of its end. -/
theorem Hanging.enter (hc : out.heap.Closed) (ht : out.Hanging (.enter h :: tasks)) :
    out.Hanging ((out.dependencies h).map .enter ++ .leave h :: tasks) := by
  obtain ⟨hhead, htail⟩ := List.pairwise_cons.mp ht
  refine List.pairwise_append.mpr ⟨hanging_enter_all _, List.pairwise_cons.mpr ⟨hhead, htail⟩, ?_⟩
  intro t hm u hu g hg
  obtain ⟨d, hd, rfl⟩ := List.mem_map.mp hm
  have hread : out.Reads h d := (mem_dependencies_iff hc).mp hd
  rcases List.mem_cons.mp hu with rfl | hu
  · cases hg
    exact .single hread
  · exact .tail (hhead u hu g hg) hread

variable {known more : Handle → Prop}

theorem Ready.mono (hc : out.heap.Closed) (hr : out.Ready known tasks)
    (hk : ∀ k < out.heap.size, known k → more k) : out.Ready more tasks := by
  induction tasks generalizing known more with
  | nil => trivial
  | cons t tasks ih =>
    cases t with
    | enter h => exact ih hr fun k hlt => Or.imp_left (hk k hlt)
    | leave h => exact ⟨fun d hd => hk d (hd.lt hc) (hr.1 d hd), ih hr.2 hk⟩

theorem ready_enter_all (hs : List Handle) :
    out.Ready known (hs.map .enter ++ tasks) ↔ out.Ready (fun k => known k ∨ k ∈ hs) tasks := by
  induction hs generalizing known with
  | nil => simp
  | cons h hs ih =>
    simp only [List.map_cons, List.cons_append, Ready, ih, List.mem_cons, or_assoc]

theorem Ready.enter (hc : out.heap.Closed) (hr : out.Ready (· ∈ seen) (.enter h :: tasks)) :
    out.Ready (· ∈ seen.insert h) ((out.dependencies h).map .enter ++ .leave h :: tasks) := by
  rw [ready_enter_all]
  refine ⟨fun d hd => Or.inr ((mem_dependencies_iff hc).mpr hd), hr.mono hc fun k _ hk => ?_⟩
  rw [mem_insert_seen]
  exact Or.inl hk.symm

theorem Ready.skip (hc : out.heap.Closed) (hr : out.Ready (· ∈ seen) (.enter h :: tasks))
    (hn : ¬(h < out.heap.size ∧ h ∉ seen)) : out.Ready (· ∈ seen) tasks := by
  refine hr.mono hc fun k hlt hk => ?_
  rcases hk with hk | rfl
  · exact hk
  · by_contra hs
    exact hn ⟨hlt, hs⟩

/-- What an object reads is listed before it, unless it was listed before the walk went on, or the
object hangs on it. -/
theorem listed_or_path (hc : out.heap.Closed) (ht : out.Hanging tasks)
    (hready : out.Ready (· ∈ seen) tasks) {pre post : List Handle}
    (hv : out.visit seen tasks = pre ++ r :: post) (hr : out.Reads r d) :
    d ∈ pre ∨ (d ∈ seen ∧ d ∉ leaving tasks) ∨ ReflTransGen out.Reads d r := by
  fun_induction out.visit seen tasks generalizing pre with
  | case1 => simp at hv
  | case2 seen g tasks ih =>
    cases pre with
    | nil =>
      obtain rfl : g = r := (List.cons.inj hv).1
      by_cases hd : d = g
      · exact Or.inr (Or.inr (hd ▸ .refl))
      · by_cases hl : .leave d ∈ tasks
        · exact Or.inr (Or.inr (ht.leave hl))
        · refine Or.inr (Or.inl ⟨hready.1 d hr, ?_⟩)
          simpa [mem_leaving, hd] using hl
    | cons p pre =>
      obtain ⟨rfl, hrest⟩ := List.cons.inj hv
      rcases ih (List.pairwise_cons.mp ht).2 hready.2 hrest with hd | ⟨hs, hl⟩ | hpath
      · exact Or.inl (List.mem_cons_of_mem g hd)
      · by_cases hd : d = g
        · exact Or.inl (hd ▸ List.mem_cons_self)
        · exact Or.inr (Or.inl ⟨hs, by simp [hd, hl]⟩)
      · exact Or.inr (Or.inr hpath)
  | case3 seen g tasks hg ih =>
    rcases ih (ht.enter hc) (hready.enter hc) hv with hd | ⟨hs, hl⟩ | hpath
    · exact Or.inl hd
    · rw [leaving_append_enter, leaving_leave, List.mem_cons, not_or] at hl
      exact Or.inr (Or.inl ⟨(mem_insert_seen.mp hs).resolve_left hl.1, by simpa using hl.2⟩)
    · exact Or.inr (Or.inr hpath)
  | case4 seen g tasks hg ih => exact ih (List.pairwise_cons.mp ht).2 (hready.skip hc hg) hv

/-- An object that is not bound before one that reads it leads back to that one. -/
theorem path_of_not_precedes (hc : out.heap.Closed) (ho : r ∈ out.order) (hr : out.Reads r d)
    (hp : ¬Precedes out.order d r) : ReflTransGen out.Reads d r := by
  obtain ⟨pre, post, hsplit⟩ := List.append_of_mem ho
  have hready : out.Ready (· ∈ ({} : HandleSet)) (out.tracker.order.map .enter) := by
    rw [← List.append_nil (List.map _ _), ready_enter_all]
    trivial
  have hn : r ∉ pre := by
    have hnodup : out.order.Nodup := nodup_order
    rw [hsplit] at hnodup
    exact fun hm => (List.nodup_append.mp hnodup).2.2 r hm r List.mem_cons_self rfl
  rw [hsplit, precedes_iff hn] at hp
  rcases listed_or_path hc (hanging_enter_all _) hready hsplit hr with hd | ⟨hs, -⟩ | hpath
  · exact absurd hd hp
  · simp at hs
  · exact hpath

/-- If all that is read is bound before, so is all that an object leads to. -/
theorem precedes_of_path {order : List Handle}
    (hp : ∀ r d, out.tracker.isTracked r → out.Reads r d → Precedes order d r)
    (ht : out.tracker.isTracked h) (hr : TransGen out.Reads h k) : Precedes order k h := by
  induction hr with
  | single hr => exact hp _ _ ht hr
  | @tail g k hpath hr ih =>
    have hmid : out.tracker.isTracked g := by
      obtain ⟨_, -, hg⟩ := TransGen.tail'_iff.mp hpath
      exact hg.isTracked
    exact Nat.lt_trans (hp _ _ hmid hr) ih

end Walk

/-- A function reads nothing while it is built: what it captures and what its body holds is
deferred. -/
theorem not_reads_of_function {f : Closure} (hf : out.heap.get? h = some (.function f)) :
    ¬out.Reads h d := by
  rintro ⟨steps, path, hl⟩
  have hd : ∀ c ∈ out.heap.children h, c.1.isDeferred := by
    simpa [Heap.children, hf] using isDeferred_children f
  exact List.not_mem_nil (((lists_nil_of_deferred hd).2 (steps, path, d)).mpr hl)

theorem Leads.not_isDeferred {steps : List Nat} {path : List Place}
    (hl : out.Leads h steps path d) : ∀ place ∈ path, place.isDeferred = false := by
  induction hl with
  | last _ hp _ => simpa using hp
  | through _ hp _ _ ih => exact List.forall_mem_cons.mpr ⟨hp, ih⟩

section Patches

variable {lines patches : List String} {segments : Handle → List (String ⊕ Edge)}
  {late : Finset Edge}

theorem TwoPhase.length_patches (htwo : out.TwoPhase lines patches out.order segments late) :
    patches.length = late.card := by
  rw [← Multiset.coe_card, htwo.patches_eq, Multiset.card_map]
  rfl

theorem TwoPhase.path_of_mem_late (hc : out.heap.Closed)
    (htwo : out.TwoPhase lines patches out.order segments late) {e : Edge} (he : e ∈ late) :
    ReflTransGen out.Reads e.target e.source := by
  obtain ⟨ho, hedge, hp⟩ := (htwo.mem_late e).mp he
  exact path_of_not_precedes hc ho ⟨e.steps, e.path, hedge⟩ hp

/-- There is nothing to patch exactly if nothing leads back to itself. -/
theorem TwoPhase.late_eq_empty_iff (hc : out.heap.Closed)
    (htwo : out.TwoPhase lines patches out.order segments late) :
    late = ∅ ↔ ∀ r, ¬TransGen out.Reads r r := by
  constructor
  · intro hempty r hcycle
    have hr : out.tracker.isTracked r := by
      obtain ⟨_, -, hr⟩ := TransGen.tail'_iff.mp hcycle
      exact hr.isTracked
    have hprec : ∀ g d, out.tracker.isTracked g → out.Reads g d → Precedes out.order d g := by
      rintro g d hg ⟨steps, path, hl⟩
      by_contra hp
      have ho : g ∈ out.order := htwo.perm.mem_iff.mpr (Tracker.isTracked_iff.mp hg)
      have hmem : (⟨g, steps, path, d⟩ : Edge) ∈ late := (htwo.mem_late _).mpr ⟨ho, hl, hp⟩
      simp [hempty] at hmem
    exact Nat.lt_irrefl _ (precedes_of_path hprec hr hcycle)
  · intro hacyclic
    refine Finset.eq_empty_of_forall_notMem fun e he => hacyclic e.source ?_
    have hread : out.Reads e.source e.target := ⟨e.steps, e.path, ((htwo.mem_late e).mp he).2.1⟩
    exact .head' hread (htwo.path_of_mem_late hc he)

end Patches

/-- Patches occur only on cycles. Each of them is for a reference that its object reads while it is
built, and whose target leads back to that object by such references. There is none exactly if
nothing leads back to itself. What functions capture or hold in their bodies is not read then. -/
theorem companion_patches_cyclic {heap : Heap} (hc : heap.Closed) (calls : List Tracker.Call)
    (hs : ∀ h ∈ Tracker.starts calls, h < heap.size) (names : Naming)
    (ho : out = companionOutput heap (Tracker.run heap {} (calls ++ [.close])) names)
    {text : String} {count : Nat}
    (h : companionText heap (Tracker.run heap {} (calls ++ [.close])) names = .ok (text, count)) :
    ∃ lines patches segments late, out.companion = .ok (lines, patches) ∧
      text = "\n".intercalate (lines ++ patches) ∧ count = patches.length ∧
      out.TwoPhase lines patches out.order segments late ∧
      (∀ e ∈ late, ReflTransGen out.Reads e.target e.source) ∧
      (∀ e ∈ late, ∀ place ∈ e.path, place.isDeferred = false) ∧
      (∀ k f d, heap.get? k = some (.function f) → ¬out.Reads k d) ∧
      (count = 0 ↔ ∀ r, ¬TransGen out.Reads r r) := by
  subst ho
  obtain ⟨⟨lines, patches⟩, hcompanion, h⟩ := bind_eq_ok.mp h
  obtain ⟨rfl, rfl⟩ := Prod.mk.inj (pure_eq_ok.mp h)
  have hr : ∀ k ∈ (Tracker.run heap {} (calls ++ [.close])).order, k < heap.size := fun k hk =>
    ((Tracker.mem_order_run_close hc calls hs).mp hk).1.lt hc hs
  obtain ⟨segments, late, htwo⟩ := exists_twoPhase hr hcompanion
  refine ⟨lines, patches, segments, late, hcompanion, rfl, rfl, htwo,
    fun e he => htwo.path_of_mem_late hc he, fun e he => ?_, fun k f d hf => ?_, ?_⟩
  · exact ((htwo.mem_late e).mp he).2.1.not_isDeferred
  · exact not_reads_of_function hf
  · rw [htwo.length_patches, Finset.card_eq_zero]
    exact htwo.late_eq_empty_iff hc

/-- A record that holds itself inside a sequence, and once more inside a function. -/
def loop : Heap :=
  ⟨#[.record [] [("list", .ref 1), ("get", .ref 2)], .seq [.null, .ref 0],
    .function ⟨"get", [], [.ret (.ident "me")], [("me", .ref 0)]⟩]⟩

/-- Only the sequence needs a patch. -/
theorem companion_patches_cyclic_loop :
    companionText loop (Tracker.run loop {} [.addRoot (.ref 0), .close]) {} = .ok
      ("export const item0 = \x7b list: [null, undefined], " ++
        "get: function get() \x7b return item0; \x7d \x7d;\nitem0.list[1] = item0;", 1) ∧
    ∃ r, TransGen
      (companionOutput loop (Tracker.run loop {} [.addRoot (.ref 0), .close]) {}).Reads r r := by
  have htext : companionText loop (Tracker.run loop {} [.addRoot (.ref 0), .close]) {} = .ok
      ("export const item0 = \x7b list: [null, undefined], " ++
        "get: function get() \x7b return item0; \x7d \x7d;\nitem0.list[1] = item0;", 1) := by cbv
  refine ⟨htext, ?_⟩
  obtain ⟨lines, patches, segments, late, -, -, -, -, -, -, -, hcount⟩ :=
    companion_patches_cyclic (by decide) [.addRoot (.ref 0)] (by decide) {} rfl htext
  by_contra hacyclic
  exact absurd (hcount.mpr (not_exists.mp hacyclic)) (by decide)

end Comptime.Output
