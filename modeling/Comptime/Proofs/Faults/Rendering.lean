import Comptime.Proofs.Traversal

/-! What can go wrong while code is written. Only the writer of its leaves fails, so the faults are
those of its items, its free identifiers and its slots. -/
namespace Comptime

variable {α β : Type} {P : Fault → Prop}

/-- If there is a fault, it has the property. -/
def FailsWith (P : Fault → Prop) (x : Except Fault α) : Prop := ∀ e, x = .error e → P e

namespace FailsWith

theorem pure (a : α) : FailsWith P (Pure.pure a) := fun _ he => nomatch he

theorem throw {e : Fault} (he : P e) : FailsWith P (MonadExcept.throw e : Except Fault α) := by
  intro e' h
  cases h
  exact he

theorem bind {x : Except Fault α} {f : α → Except Fault β} (hx : FailsWith P x)
    (hf : ∀ a, FailsWith P (f a)) : FailsWith P (x >>= f) := by
  intro e he
  cases x with
  | error e' =>
    cases he
    exact hx e rfl
  | ok a => exact hf a e he

theorem mapM {f : α → Except Fault β} {as : List α} (h : ∀ a ∈ as, FailsWith P (f a)) :
    FailsWith P (as.mapM f) := by
  induction as with
  | nil => exact pure []
  | cons a as ih =>
    rw [List.mapM_cons]
    rw [List.forall_mem_cons] at h
    exact h.1.bind fun b => (ih h.2).bind fun bs => pure _

end FailsWith

/-- A traversal fails only as one of its questions does. -/
theorem Gathers.failsWith {E : (Type → Type) → Type} {Q A : Type} {ask : Q → Routine E A}
    {qs : List Q} {r : Routine E α} (hr : Gathers ask qs r) {e : E (Except Fault)}
    (h : ∀ q ∈ qs, FailsWith P (ask q _ e)) : FailsWith P (r _ e) := by
  obtain ⟨fill, hr⟩ := hr
  rw [hr, map_eq_pure_bind]
  exact (FailsWith.mapM h).bind fun as => .pure _

section

variable {w : Writer (Except Fault)}

theorem failsWith_renderProgram (hfree : ∀ name, FailsWith P (w.free name)) (p : Program)
    (hi : ∀ x ∈ Stmt.itemsAll p, FailsWith P (w.item x))
    (hs : ∀ a ∈ Stmt.slotsAll p, FailsWith P (w.comptime a)) : FailsWith P (renderProgram w p) := by
  refine (gathers_renderProgram p).failsWith fun l hl => ?_
  cases l with
  | item x => exact hi x (Stmt.mem_itemsAll_of_leaf hl)
  | free name => exact hfree name
  | slot a => exact hs a (Stmt.mem_slotsAll_of_leaf hl)

/-- In a function the captured items are written too. -/
theorem Closure.failsWith_render (hfree : ∀ name, FailsWith P (w.free name)) (f : Closure)
    (hi : ∀ x, .item x ∈ f.leaves → FailsWith P (w.item x))
    (hs : ∀ a ∈ Stmt.slotsAll f.body, FailsWith P (w.comptime a)) : FailsWith P (f.render w) := by
  refine f.gathers_render.failsWith fun l hl => ?_
  cases l with
  | item x => exact hi x hl
  | free name => exact hfree name
  | slot a => exact hs a ((Object.slot_mem_leaves (o := .function f)).mp hl)

end

end Comptime
