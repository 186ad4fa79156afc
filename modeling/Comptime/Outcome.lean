import Comptime.Heap.Basic

/-! Results of computations that may have to wait. -/
namespace Comptime

/-- The end of an attempt to get a value: there it is, not yet, or never. -/
inductive Outcome (α : Type)
  | resolved (value : α)
  | pending
  | failed (fault : Fault)

namespace Outcome

variable {α β : Type}

def bind : Outcome α → (α → Outcome β) → Outcome β
  | resolved a, f => f a
  | pending, _ => pending
  | failed e, _ => failed e

instance : Monad Outcome where
  pure := resolved
  bind := bind

instance : LawfulMonad Outcome := LawfulMonad.mk' _
  (fun x => by cases x <;> rfl) (fun _ _ => rfl) (fun x _ _ => by cases x <;> rfl)

def ofExcept : Except Fault α → Outcome α
  | .ok a => resolved a
  | .error e => failed e

end Outcome

/-- A computation over a state. The state it reached is kept however it ends. -/
def Run (σ α : Type) := σ → Outcome α × σ

namespace Run

variable {σ α β : Type}

def bind (m : Run σ α) (f : α → Run σ β) : Run σ β := fun s =>
  match m s with
  | (.resolved a, s) => f a s
  | (.pending, s) => (.pending, s)
  | (.failed e, s) => (.failed e, s)

instance : Monad (Run σ) where
  pure a s := (.resolved a, s)
  bind := bind

theorem bind_apply (m : Run σ α) (f : α → Run σ β) (s : σ) :
    (m >>= f) s =
      match m s with
      | (.resolved a, s) => f a s
      | (.pending, s) => (.pending, s)
      | (.failed e, s) => (.failed e, s) := rfl

instance : LawfulMonad (Run σ) := LawfulMonad.mk' _
  (fun m => by
    funext s
    change (m >>= pure) s = m s
    rw [bind_apply]
    split <;> simp_all [Pure.pure])
  (fun _ _ => rfl)
  (fun m f g => by
    funext s
    simp only [bind_apply]
    cases m s with
    | mk o u => cases o <;> rfl)

/-- A result that leaves the state alone. -/
def lift (o : Outcome α) : Run σ α := fun s => (o, s)

def fail (e : Fault) : Run σ α := lift (.failed e)

def state : Run σ σ := fun s => (.resolved s, s)

end Run

/-- A computation over a state that may fail but never waits. The state it reached is kept however
it ends. -/
def Job (σ α : Type) := σ → Except Fault α × σ

namespace Job

variable {σ α β : Type}

def bind (m : Job σ α) (f : α → Job σ β) : Job σ β := fun s =>
  match m s with
  | (.ok a, s) => f a s
  | (.error e, s) => (.error e, s)

instance : Monad (Job σ) where
  pure a s := (.ok a, s)
  bind := bind

theorem bind_apply (m : Job σ α) (f : α → Job σ β) (s : σ) :
    (m >>= f) s =
      match m s with
      | (.ok a, s) => f a s
      | (.error e, s) => (.error e, s) := rfl

instance : LawfulMonad (Job σ) := LawfulMonad.mk' _
  (fun m => by
    funext s
    change (m >>= pure) s = m s
    rw [bind_apply]
    split <;> simp_all [Pure.pure])
  (fun _ _ => rfl)
  (fun m f g => by
    funext s
    simp only [bind_apply]
    cases m s with
    | mk o u => cases o <;> rfl)

def fail (e : Fault) : Job σ α := fun s => (.error e, s)

def state : Job σ σ := fun s => (.ok s, s)

theorem bind_eq_ok {m : Job σ α} {f : α → Job σ β} {b : β} {s t : σ} :
    (m >>= f) s = (.ok b, t) ↔ ∃ a u, m s = (.ok a, u) ∧ f a u = (.ok b, t) := by
  simp only [Bind.bind, bind]
  cases h : m s with
  | mk o u => cases o <;> simp [and_assoc]

end Job

/-- An evaluation: it may store new objects. -/
abbrev Eval := Run Heap

/-- Stores an object and refers to it. -/
def Eval.alloc (o : Object) : Eval Item := fun heap =>
  (.resolved (.ref heap.size), heap.alloc o)

end Comptime
