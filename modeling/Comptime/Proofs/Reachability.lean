import Comptime.Heap.Basic

/-! Reachability as a relation, and heaps without dangling handles. -/
namespace Comptime.Heap

variable {heap heap' : Heap} {start more : List Handle} {h k : Handle} {o : Object}

/-- What the given handles lead to, one reference after the other. -/
inductive Reach (heap : Heap) (start : List Handle) : Handle → Prop
  | start {h : Handle} : h ∈ start → Reach heap start h
  | step {h k : Handle} : Reach heap start h → k ∈ heap.refs h → Reach heap start k

/-- Every reference of a stored object names a stored object. -/
def Closed (heap : Heap) : Prop := ∀ h < heap.size, ∀ k ∈ heap.refs h, k < heap.size

instance : Decidable heap.Closed :=
  inferInstanceAs (Decidable (∀ h < heap.size, ∀ k ∈ heap.refs h, k < heap.size))

theorem get?_eq_none_iff : heap.get? h = none ↔ heap.size ≤ h := by
  simp [get?, size]

theorem exists_get? (hlt : h < heap.size) : ∃ o, heap.get? h = some o := by
  cases ho : heap.get? h with
  | none => exact absurd (get?_eq_none_iff.mp ho) (Nat.not_le.mpr hlt)
  | some o => exact ⟨o, rfl⟩

theorem refs_eq_nil (hle : heap.size ≤ h) : heap.refs h = [] := by
  simp [refs, items, children, get?_eq_none_iff.mpr hle, refsOf]

theorem lt_of_mem_refs (hk : k ∈ heap.refs h) : h < heap.size := by
  refine Nat.lt_of_not_le fun hle => ?_
  rw [refs_eq_nil hle] at hk
  cases hk

theorem Closed.lt (hc : heap.Closed) (hk : k ∈ heap.refs h) : k < heap.size :=
  hc h (lt_of_mem_refs hk) k hk

theorem Reach.mono (hr : heap.Reach start h) (hs : ∀ k ∈ start, k ∈ more) :
    heap.Reach more h := by
  induction hr with
  | start hm => exact .start (hs _ hm)
  | step _ hk ih => exact .step ih hk

/-- Without dangling handles nothing leads out of the heap. -/
theorem Reach.lt (hr : heap.Reach start h) (hc : heap.Closed) (hs : ∀ k ∈ start, k < heap.size) :
    h < heap.size := by
  cases hr with
  | start hm => exact hs _ hm
  | step _ hk => exact hc.lt hk

/-- A set that holds the start and what its members refer to holds all that can be reached. -/
theorem Reach.mem_of_closed {p : Handle → Prop} (hr : heap.Reach start h)
    (hs : ∀ k ∈ start, p k) (hp : ∀ g, p g → ∀ k ∈ heap.refs g, p k) : p h := by
  induction hr with
  | start hm => exact hs _ hm
  | step _ hk ih => exact hp _ ih _ hk

/-- What can be reached depends only on the objects met on the way. -/
theorem reach_congr (he : ∀ h, heap.Reach start h → heap'.get? h = heap.get? h) :
    heap'.Reach start h ↔ heap.Reach start h := by
  have hrefs : ∀ {g}, heap.Reach start g → heap'.refs g = heap.refs g := by
    intro g hg
    simp only [refs, items, children, he g hg]
  constructor
  · intro hr
    induction hr with
    | start hm => exact .start hm
    | step _ hk ih => exact .step ih (hrefs ih ▸ hk)
  · intro hr
    induction hr with
    | start hm => exact .start hm
    | step hg hk ih => exact .step ih ((hrefs hg).symm ▸ hk)

end Comptime.Heap
