import Comptime.Item
import Std.Data.TreeSet

/-! Walks that visit nothing twice end, because what is left to visit shrinks. -/
namespace Comptime

theorem countP_lt_countP {α : Type} {p q : α → Bool} {l : List α} {a : α}
    (h : ∀ x, p x → q x) (ha : a ∈ l) (hq : q a) (hp : p a = false) :
    l.countP p < l.countP q := by
  induction l with
  | nil => cases ha
  | cons b l ih =>
    have hmono := List.countP_mono_left (l := l) fun x _ => h x
    rcases List.mem_cons.mp ha with rfl | ha
    · simp only [List.countP_cons, hq, hp]
      simp
      omega
    · have := ih ha
      have hb : (if p b then 1 else 0) ≤ (if q b then 1 else 0) := by
        by_cases hb : p b
        · simp [hb, h b hb]
        · simp [hb]
      simp only [List.countP_cons]
      omega

abbrev HandleSet := Std.TreeSet Handle

/-- How many of the handles below `size` have not been seen. -/
def unseen (size : Nat) (seen : HandleSet) : Nat := (List.range size).countP (· ∉ seen)

theorem mem_insert_seen {seen : HandleSet} {h k : Handle} :
    k ∈ seen.insert h ↔ k = h ∨ k ∈ seen := by
  have hcmp : compare h k = .eq ↔ k = h := Std.LawfulEqCmp.compare_eq_iff_eq.trans eq_comm
  rw [Std.TreeSet.mem_insert, hcmp]

theorem unseen_insert_lt {size : Nat} {seen : HandleSet} {h : Handle} (hlt : h < size)
    (hn : h ∉ seen) : unseen size (seen.insert h) < unseen size seen :=
  countP_lt_countP (fun x hx => by simp_all) (List.mem_range.mpr hlt) (by simpa) (by simp)

/-- Of the wanted handles below `size`, those not seen yet, each once, and what is seen after
that. -/
def pick (size : Nat) (seen : HandleSet) : List Handle → List Handle × HandleSet
  | [] => ([], seen)
  | h :: hs =>
    if h < size ∧ h ∉ seen then
      let rest := pick size (seen.insert h) hs
      (h :: rest.1, rest.2)
    else pick size seen hs

theorem mem_of_mem_pick {size : Nat} {seen : HandleSet} {hs : List Handle} {k : Handle}
    (hk : k ∈ (pick size seen hs).1) : k ∈ hs := by
  induction hs generalizing seen with
  | nil => cases hk
  | cons h hs ih =>
    rw [pick] at hk
    split at hk
    · rcases List.mem_cons.mp hk with rfl | hk
      · exact List.mem_cons_self
      · exact List.mem_cons_of_mem h (ih hk)
    · exact List.mem_cons_of_mem h (ih hk)

/-- What is picked counts as seen, and nothing else is added. -/
theorem mem_pick_seen {size : Nat} {seen : HandleSet} {hs : List Handle} {k : Handle} :
    k ∈ (pick size seen hs).2 ↔ k ∈ (pick size seen hs).1 ∨ k ∈ seen := by
  induction hs generalizing seen with
  | nil => simp [pick]
  | cons h hs ih =>
    rw [pick]
    split
    · rw [ih, mem_insert_seen, List.mem_cons, or_left_comm, or_assoc]
    · exact ih

/-- Nothing that is wanted and stored is left out. -/
theorem mem_pick_of_mem {size : Nat} {seen : HandleSet} {hs : List Handle} {k : Handle}
    (hk : k ∈ hs) (hlt : k < size) : k ∈ (pick size seen hs).1 ∨ k ∈ seen := by
  induction hs generalizing seen with
  | nil => cases hk
  | cons h hs ih =>
    rw [pick]
    rcases List.mem_cons.mp hk with rfl | hk
    · by_cases hs : k ∈ seen
      · exact Or.inr hs
      · rw [if_pos ⟨hlt, hs⟩]
        exact Or.inl List.mem_cons_self
    · split
      · have hrest : k ∈ (pick size (seen.insert h) hs).1 ∨ k ∈ seen.insert h := ih hk
        rcases hrest with hp | hs
        · exact Or.inl (List.mem_cons_of_mem h hp)
        · rcases mem_insert_seen.mp hs with rfl | hs
          · exact Or.inl List.mem_cons_self
          · exact Or.inr hs
      · exact ih hk

theorem unseen_pick (size : Nat) (seen : HandleSet) (hs : List Handle) :
    (pick size seen hs).1.length + unseen size (pick size seen hs).2 ≤ unseen size seen := by
  induction hs generalizing seen with
  | nil => simp [pick]
  | cons h hs ih =>
    rw [pick]
    split
    · rename_i hn
      have := ih (seen.insert h)
      have := unseen_insert_lt hn.1 hn.2
      simp only [List.length_cons]
      omega
    · exact ih seen

end Comptime
