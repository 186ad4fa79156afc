import Comptime.Eval

/-! Sweeps: each open slot is tried once, in order of group and slot, and frozen when it resolves.
Sweeps are repeated until one brings nothing new, which must happen since every other one leaves
fewer slots open. -/
namespace Comptime

/-- A context and the heap its items live in. -/
structure World where
  context : Context := {}
  heap : Heap := {}

/-- What a sweep achieved: how many slots it froze, and which groups still have an open one. -/
structure Progress where
  frozen : Nat
  unresolved : List GroupId

def Progress.isComplete (p : Progress) : Bool := p.unresolved.isEmpty

/-- How a run of sweeps ended. -/
structure Fixpoint where
  sweeps : Nat
  complete : Bool

namespace Frame

def freezeIn (a : SlotAddr) (x : Item) : List GroupState → List GroupState
  | [] => []
  | g :: gs =>
    if g.id == a.group then
      { g with slots := g.slots.modify a.slot fun s => { s with item := some x } } :: gs
    else g :: freezeIn a x gs

theorem ids_freezeIn (a : SlotAddr) (x : Item) (groups : List GroupState) :
    (freezeIn a x groups).map GroupState.id = groups.map GroupState.id := by
  induction groups with
  | nil => rfl
  | cons g gs ih =>
    simp only [freezeIn]
    split <;> simp [ih]

theorem ascending_freezeIn (a : SlotAddr) (x : Item) {groups : List GroupState}
    (h : GroupState.Ascending groups) : GroupState.Ascending (freezeIn a x groups) := by
  have hids := List.pairwise_map.mpr h
  rw [← ids_freezeIn a x] at hids
  exact List.pairwise_map.mp hids

def freeze (f : Frame) (a : SlotAddr) (x : Item) : Frame :=
  { f with
    groups := freezeIn a x f.groups
    ascending := ascending_freezeIn a x f.ascending }

def isOpen (f : Frame) (a : SlotAddr) : Bool :=
  match f.group? a.group with
  | some g => (g.slots[a.slot]?).any Slot.isOpen
  | none => false

theorem countP_modify {a : Nat} {x : Item} {slots : List Slot}
    (h : (slots[a]?).any Slot.isOpen) :
    (slots.modify a fun s => { s with item := some x }).countP Slot.isOpen + 1 =
      slots.countP Slot.isOpen := by
  induction slots generalizing a with
  | nil => simp at h
  | cons s slots ih =>
    cases a with
    | zero => simp_all [Slot.isOpen]
    | succ a =>
      have := ih (a := a) (by simpa using h)
      simp only [List.modify_succ_cons, List.countP_cons]
      omega

theorem openSlots_freeze {f : Frame} {a : SlotAddr} (x : Item) (h : f.isOpen a) :
    (f.freeze a x).openSlots + 1 = f.openSlots := by
  simp only [isOpen, group?, openSlots, freeze] at h ⊢
  generalize f.groups = groups at h ⊢
  induction groups with
  | nil => simp at h
  | cons g gs ih =>
    rw [List.find?_cons] at h
    simp only [freezeIn]
    split at h
    · rename_i hid
      split at hid
      · rename_i hg
        cases hid
        have hs : (g.slots.toList[a.slot]?).any Slot.isOpen := by simpa using h
        have := countP_modify (x := x) hs
        simp only [hg, ↓reduceIte, List.foldr_cons, Array.toList_modify]
        omega
      · rename_i hg
        simp only [hg, hid] at ih ⊢
        have := ih h
        simp only [Bool.false_eq_true, ↓reduceIte, List.foldr_cons]
        omega
    · cases h

end Frame

namespace World

def chain (w : World) : Chain := w.context.chain

def openSlots (w : World) : Nat := w.context.frame.openSlots

variable (q : Qualifier)

/-- Tries one slot, unless it is frozen. Answers whether it was frozen now, and whether it is still
open. -/
def trySlot (a : SlotAddr) (e : Expr) : Job World (Bool × Bool) := fun w =>
  if w.context.frame.isOpen a then
    match e.evalWith q w.chain w.heap with
    | (.resolved x, heap) =>
      (.ok (true, false), ⟨{ w.context with frame := w.context.frame.freeze a x }, heap⟩)
    | (.pending, heap) => (.ok (false, true), { w with heap })
    | (.failed f, heap) => (.error f, { w with heap })
  else (.ok (false, false), w)

/-- Tries the slots of one group. Answers how many were frozen, and whether one is still open. -/
def sweepSlots (id : GroupId) : List (Slot × Nat) → Job World (Nat × Bool)
  | [] => return (0, false)
  | (s, i) :: rest => do
    let (now, still) ← trySlot q ⟨id, i⟩ s.expr
    let (n, more) ← sweepSlots id rest
    return (now.toNat + n, still || more)

def sweepGroups : List GroupState → Job World Progress
  | [] => return ⟨0, []⟩
  | g :: gs => do
    let (n, still) ← sweepSlots q g.id g.slots.toList.zipIdx
    let rest ← sweepGroups gs
    return ⟨n + rest.frozen, if still then g.id :: rest.unresolved else rest.unresolved⟩

def sweepWith : Job World Progress := fun w =>
  sweepGroups q w.context.frame.groups w

section Termination

variable {q}

theorem openSlots_trySlot {a : SlotAddr} {e : Expr} {w w' : World} {r : Bool × Bool}
    (h : trySlot q a e w = (.ok r, w')) : w'.openSlots + r.1.toNat = w.openSlots := by
  unfold trySlot at h
  split at h
  · rename_i ho
    split at h <;> cases h
    · exact Frame.openSlots_freeze _ ho
    · rfl
  · cases h
    rfl

theorem openSlots_sweepSlots {id : GroupId} {slots : List (Slot × Nat)} {w w' : World}
    {r : Nat × Bool} (h : sweepSlots q id slots w = (.ok r, w')) :
    w'.openSlots + r.1 = w.openSlots := by
  induction slots generalizing w w' r with
  | nil => cases h; rfl
  | cons p slots ih =>
    obtain ⟨a, u, hs, h⟩ := Job.bind_eq_ok.mp h
    obtain ⟨b, v, hr, h⟩ := Job.bind_eq_ok.mp h
    cases h
    have := openSlots_trySlot hs
    have := ih hr
    omega

theorem openSlots_sweepGroups {groups : List GroupState} {w w' : World} {r : Progress}
    (h : sweepGroups q groups w = (.ok r, w')) : w'.openSlots + r.frozen = w.openSlots := by
  induction groups generalizing w w' r with
  | nil => cases h; rfl
  | cons g groups ih =>
    obtain ⟨a, u, hs, h⟩ := Job.bind_eq_ok.mp h
    obtain ⟨b, v, hr, h⟩ := Job.bind_eq_ok.mp h
    cases h
    have := openSlots_sweepSlots hs
    have := ih hr
    simp only
    omega

/-- A sweep closes as many slots as it says. -/
theorem openSlots_sweepWith {w w' : World} {r : Progress}
    (h : sweepWith q w = (.ok r, w')) : w'.openSlots + r.frozen = w.openSlots :=
  openSlots_sweepGroups h

end Termination

/-- Sweeps until every slot is frozen or a sweep freezes none, after `n` sweeps so far. -/
def sweepFrom (n : Nat) (w : World) : Except Fault Fixpoint × World :=
  match _h : sweepWith q w with
  | (.ok p, w') =>
    if p.isComplete then (.ok ⟨n + 1, true⟩, w')
    else if p.frozen = 0 then (.ok ⟨n + 1, false⟩, w')
    else sweepFrom (n + 1) w'
  | (.error f, w') => (.error f, w')
termination_by w.openSlots
decreasing_by
  have := openSlots_sweepWith _h
  omega

/-- Sweeps until nothing more resolves. -/
def stallWith : Job World Fixpoint := sweepFrom q 0

/-- Sweeps until every slot is frozen, and gives the number of sweeps. It is a fault if that cannot
be reached; the fault names the first slot left open. -/
def resolveWith : Job World Nat := do
  let fix ← stallWith q
  if fix.complete then return fix.sweeps
  else Job.fail (.stuck ((← Job.state).context.frame.firstOpen?.getD ""))

end World

end Comptime
