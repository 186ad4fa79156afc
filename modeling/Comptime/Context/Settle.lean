import Comptime.Context.Basic
import Comptime.Unvisited

/-! Settlement: following placeholders to the items they stand for, and putting those in their place
throughout a heap. -/
namespace Comptime

namespace Placeholder

/-- Variables come before the slots of all groups. -/
def rank : Placeholder → Nat
  | .slot a => a.group + 1
  | .var _ => 0

def position : Placeholder → Nat
  | .slot a => a.slot
  | .var v => v

def compare : Placeholder → Placeholder → Ordering :=
  compareLex (compareOn rank) (compareOn position)

instance : Std.TransCmp compare := inferInstanceAs (Std.TransCmp (compareLex _ _))

@[simp]
theorem compare_eq_eq {p q : Placeholder} : p.compare q = .eq ↔ p = q := by
  cases p <;> cases q <;> simp [compare, compareLex_eq_eq, compareOn, rank, position]
  rename_i a b
  cases a
  cases b
  simp

end Placeholder

abbrev PlaceholderSet := Std.TreeSet Placeholder Placeholder.compare

namespace Chain

/-- Every placeholder that stands for a slot or a variable of the chain. -/
def placeholders (chain : Chain) : List Placeholder :=
  chain.flatMap fun f =>
    (f.groups.flatMap fun g => (List.range g.slots.size).map fun i => .slot ⟨g.id, i⟩) ++
      f.vars.map fun b => .var b.1

section Termination

variable {chain : Chain}

theorem mem_placeholders_of_readSlot {a : SlotAddr} {x : Item}
    (h : readSlot chain a = .resolved x) : .slot a ∈ placeholders chain := by
  unfold readSlot at h
  split at h
  · cases h
  · rename_i g hg
    obtain ⟨f, hf, hfg⟩ := List.exists_of_findSome?_eq_some hg
    have hid := List.find?_some hfg
    have hmem := List.mem_of_find?_eq_some hfg
    have hlt : a.slot < g.slots.size := by
      split at h <;> simp_all
      all_goals exact (Array.getElem?_eq_some_iff.mp ‹_›).1
    simp only [placeholders, List.mem_flatMap, List.mem_append, List.mem_map]
    refine ⟨f, hf, Or.inl ⟨g, hmem, a.slot, by simpa using hlt, ?_⟩⟩
    simp only [beq_iff_eq] at hid
    cases a
    simp_all

theorem mem_vars_of_lookup {v : VarId} {b : Binding} {vars : List (VarId × Binding)}
    (h : vars.lookup v = some b) : ∃ p ∈ vars, p.1 = v := by
  induction vars with
  | nil => cases h
  | cons p vars ih =>
    rw [List.lookup_cons] at h
    split at h
    · rename_i hv
      exact ⟨p, List.mem_cons_self, (beq_iff_eq.mp hv).symm⟩
    · obtain ⟨q, hq, hv⟩ := ih h
      exact ⟨q, List.mem_cons_of_mem _ hq, hv⟩

theorem mem_placeholders_of_readVar {v : VarId} {x : Item}
    (h : readVar chain v = .resolved (some x)) : .var v ∈ placeholders chain := by
  induction chain with
  | nil => simp [readVar] at h
  | cons f chain ih =>
    rw [readVar] at h
    cases hv : f.vars.lookup v with
    | none =>
      rw [hv] at h
      have := ih h
      simp only [placeholders, List.flatMap_cons, List.mem_append]
      exact Or.inr this
    | some b =>
      obtain ⟨p, hp, rfl⟩ := mem_vars_of_lookup hv
      simp only [placeholders, List.flatMap_cons, List.mem_append, List.mem_map]
      exact Or.inl (Or.inr ⟨p, hp, rfl⟩)

/-- What reads as another placeholder belongs to the chain. -/
theorem mem_placeholders_of_read {p q : Placeholder} (h : read chain p = .resolved (.hole q)) :
    p ∈ placeholders chain := by
  cases p with
  | slot a => exact mem_placeholders_of_readSlot h
  | var v =>
    simp only [read] at h
    cases hv : readVar chain v with
    | resolved x =>
      cases x with
      | some x => exact mem_placeholders_of_readVar hv
      | none => simp [hv, Bind.bind, Outcome.bind, Pure.pure] at h
    | pending => simp [hv, Bind.bind, Outcome.bind] at h
    | failed e => simp [hv, Bind.bind, Outcome.bind] at h

end Termination

/-- Follows placeholders as far as they can be read. Coming back to one of those already `seen` is a
fault of the item the walk started from. -/
def follow (chain : Chain) (start : Item) (seen : PlaceholderSet) (p : Placeholder) :
    Except Fault Item :=
  if p ∈ seen then .error (.selfReference start)
  else
    match _h : read chain p with
    | .resolved (.hole q) => follow chain start (seen.insert p) q
    | .resolved x => .ok x
    | .pending => .ok (.hole p)
    | .failed e => .error e
termination_by (placeholders chain).countP (· ∉ seen)
decreasing_by
  exact countP_lt_countP (fun x hx => by simp_all) (mem_placeholders_of_read _h) (by simpa)
    (by simp)

/-- The item at the end of the placeholders that start at `item`; `none` if that is the item
itself. -/
def settle (chain : Chain) (item : Item) : Except Fault (Option Item) := do
  let x ← match item with
    | .hole p => follow chain item {} p
    | x => .ok x
  return if x.same item then none else some x

/-- The replacement for a child, if it settles. -/
def settled? (chain : Chain) (item : Item) : Option Item :=
  match settle chain item with
  | .ok x => x
  | .error _ => none

/-- The fault of an item that does not settle. -/
def unsettled? (chain : Chain) (item : Item) : Option Fault :=
  match settle chain item with
  | .ok _ => none
  | .error e => some e

/-- Settles the children of the objects on the stack and of all they then refer to, the last one
first, in a heap of the given size. Counts the replacements. -/
def installFrom (chain : Chain) (size : Nat) :
    HandleSet → List Handle → Heap → Nat → Except Fault Nat × Heap
  | _, [], heap, n => (.ok n, heap)
  | seen, h :: stack, heap, n =>
    if h < size ∧ h ∉ seen then
      match (heap.items h).findSome? (unsettled? chain) with
      | some e => (.error e, (heap.replaceChildren h (settled? chain)).1)
      | none =>
        let next := heap.replaceChildren h (settled? chain)
        installFrom chain size (seen.insert h) ((next.1.refs h).reverse ++ stack) next.1
          (n + next.2)
    else installFrom chain size seen stack heap n
termination_by seen stack => (unseen size seen, stack.length)
decreasing_by
  · rename_i hn
    exact Prod.Lex.left _ _ (unseen_insert_lt hn.1 hn.2)
  · simp [Prod.lex_def]

/-- Puts the items that placeholders now stand for in their place, in every object below the roots.
A fault leaves what was replaced before it. -/
def install (chain : Chain) (roots : List Item) : Job Heap Nat := fun heap =>
  installFrom chain heap.size {} (refsOf roots).reverse heap 0

end Chain

end Comptime
