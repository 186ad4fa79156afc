import Comptime.Proofs.Evaluation.History
import Comptime.Proofs.Renumbering.Evaluation
import Comptime.Proofs.Renumbering.Merging

/-! Two runs of tries over the same slots, in any order, agree on what both have frozen. -/
namespace Comptime

variable {ρ : Renumbering} {n : Nat} {l r l' r' : Prop} {q q' : Qualifier} {σ₀ σ τ : Link}
  {w₀ w₀' w w' : World} {log log' : List Freeze} {a : SlotAddr} {e e' : Expr} {x y : Item}

variable (ρ n l r) in
/-- Two worlds with the same slots, all still open, inside paired chains. -/
structure Twins (q q' : Qualifier) (σ₀ : Link) (w₀ w₀' : World) : Prop where
  sim : Qualifier.Sim ρ n q q'
  safe : Qualifier.Keeps (.below n) q
  safe' : Qualifier.Keeps (.below n) q'
  heaps : σ₀.Heaps ρ n w₀.heap w₀'.heap
  outer : List.Forall₂ (σ₀.Frames ρ l r) w₀.context.outer w₀'.context.outer
  frame : σ₀.Frames ρ True True w₀.context.frame w₀'.context.frame
  based : ∀ {h}, h < n → σ₀.dom h ∧ σ₀.map h = h
  sound : w₀.Sound n
  sound' : w₀'.Sound n
  fresh : ∀ {a x}, ¬w₀.context.frame.Frozen a x
  fresh' : ∀ {a x}, ¬w₀'.context.frame.Frozen a x

variable (ρ n) in
/-- The link joins the heaps of two later worlds, and the items of what both have frozen. -/
structure Linked (σ₀ σ : Link) (w w' : World) : Prop where
  le : σ₀.Le σ
  heaps : σ.Heaps ρ n w.heap w'.heap
  items : ∀ {a x y}, w.context.frame.Frozen a x → w'.context.frame.Frozen (ρ.slot a) y →
    σ.Pair ρ x y

/-- What the left world has frozen the right one has too. -/
def FrozenLeft (ρ : Renumbering) (w w' : World) : Prop :=
  ∀ ⦃a x⦄, w.context.frame.Frozen a x → ∃ y, w'.context.frame.Frozen (ρ.slot a) y

def FrozenRight (ρ : Renumbering) (w w' : World) : Prop :=
  ∀ ⦃a y⦄, w'.context.frame.Frozen (ρ.slot a) y → ∃ x, w.context.frame.Frozen a x

theorem FrozenLeft.congr {u : World} (h : FrozenLeft ρ w w') (hu : u.context = w'.context) :
    FrozenLeft ρ w u := by
  intro a x hx
  rw [hu]
  exact h hx

theorem FrozenRight.congr {u : World} (h : FrozenRight ρ w w') (hu : u.context = w.context) :
    FrozenRight ρ u w' := by
  intro a y hy
  rw [hu]
  exact h hy

/-- Every object paired since the start was made for a slot that both have frozen. -/
def Apart (ρ : Renumbering) (σ₀ σ : Link) (w : World) (log' : List Freeze) : Prop :=
  ∀ {h}, σ.dom h → σ₀.dom h ∨ ∃ ev ∈ log', ∃ a x, ev.addr = ρ.slot a ∧
    w.context.frame.Frozen a x ∧ ev.before.heap.size ≤ σ.map h ∧ σ.map h < ev.after.size

theorem Frame.Frozen.unique {f : Frame} (hx : f.Frozen a x) (hy : f.Frozen a y) : x = y := by
  obtain ⟨e, hs⟩ := hx
  obtain ⟨e', hs'⟩ := hy
  cases hs.symm.trans hs'
  rfl

theorem World.Tries.group? (ht : w₀.Tries q log w) (id : GroupId) :
    (w.context.frame.group? id).isSome = (w₀.context.frame.group? id).isSome := by
  induction ht with
  | start => rfl
  | freeze _ _ _ ih =>
    simp only [World.freeze, Frame.group?_freeze]
    split
    · rw [Option.isSome_map, ih]
    · exact ih
  | wait _ _ _ ih => exact ih

theorem Link.PairSlot.expr {s s' : Option Slot} (h : σ.PairSlot ρ l r s s') :
    s'.map Slot.expr = (s.map Slot.expr).map (Expr.renumber ρ) := by
  cases s <;> cases s'
  · rfl
  · exact h.elim
  · exact h.elim
  · exact congrArg some h.1

namespace Twins

variable (hT : Twins ρ n l r q q' σ₀ w₀ w₀')
include hT

/-- Every slot on the right belongs to one on the left. -/
theorem range (hB : w₀'.Tries q' log' w') {b : SlotAddr} {s : Slot}
    (hs : w'.context.frame.slot? b = some s) : ∃ a, b = ρ.slot a := by
  have he : w₀'.context.frame.expr? b = some s.expr := by
    rw [← hB.attempts.expr? b, Frame.expr?, hs, Option.map_some]
  obtain ⟨s₀, hs₀, -⟩ := Option.map_eq_some_iff.mp he
  exact hT.frame.range hs₀

section Pairing

variable (hA : w₀.Tries q log w) (hB : w₀'.Tries q' log' w')
include hA hB

theorem expr? (a : SlotAddr) :
    w'.context.frame.expr? (ρ.slot a) = (w.context.frame.expr? a).map (Expr.renumber ρ) := by
  rw [hA.attempts.expr?, hB.attempts.expr?]
  exact (hT.frame.slot a).expr

theorem frames (hle : σ₀.Le σ)
    (hi : ∀ {a x y}, w.context.frame.Frozen a x → w'.context.frame.Frozen (ρ.slot a) y →
      σ.Pair ρ x y) (hl : l' → FrozenLeft ρ w w') (hr : r' → FrozenRight ρ w w') :
    σ.Frames ρ l' r' w.context.frame w'.context.frame where
  group id := by
    rw [hA.group?, hB.group?]
    exact hT.frame.group id
  slot a := by
    have he := hT.expr? hA hB a
    simp only [Frame.expr?] at he
    cases hs : w.context.frame.slot? a with
    | none =>
      cases hs' : w'.context.frame.slot? (ρ.slot a) with
      | none => trivial
      | some s' => simp [hs, hs'] at he
    | some s =>
      cases hs' : w'.context.frame.slot? (ρ.slot a) with
      | none => simp [hs, hs'] at he
      | some s' =>
        rw [hs, hs'] at he
        refine ⟨Option.some.inj he, ?_⟩
        obtain ⟨e, x⟩ := s
        obtain ⟨e', y⟩ := s'
        cases x with
        | none =>
          cases y with
          | none => trivial
          | some y =>
            intro hr'
            obtain ⟨x, e'', hx⟩ := hr hr' ⟨e', hs'⟩
            cases hs.symm.trans hx
        | some x =>
          cases y with
          | none =>
            intro hl'
            obtain ⟨y, e'', hy⟩ := hl hl' ⟨e, hs⟩
            cases hs'.symm.trans hy
          | some y => exact hi ⟨e, hs⟩ ⟨e', hs'⟩
  range := hT.range hB
  vars := by
    rw [hA.attempts.vars, hB.attempts.vars]
    exact (hT.frame.mono hle.toSub id id).vars

theorem chains (hk : Linked ρ n σ₀ σ w w') (hl : l' → l ∧ FrozenLeft ρ w w')
    (hr : r' → r ∧ FrozenRight ρ w w') : σ.Chains ρ n l' r' w.chain w'.chain where
  frames := by
    refine .cons (hT.frames hA hB hk.le hk.items (fun h => (hl h).2) fun h => (hr h).2) ?_
    rw [hA.attempts.outer, hB.attempts.outer]
    exact hT.outer.imp fun _ _ hf =>
      hf.mono hk.le.toSub (fun h => (hl h).1) fun h => (hr h).1
  based hh := by
    obtain ⟨hd, hm⟩ := hT.based hh
    exact ⟨hk.le.dom hd, (hk.le.map hd).trans hm⟩
  sound := hk.heaps.left ▸ (hA.sound hT.safe hT.sound).1.chain
  sound' := hk.heaps.right ▸ (hB.sound hT.safe' hT.sound').1.chain

/-- A slot that is open in both worlds evaluates alike in them. -/
theorem step (l' r' : Prop) (hk : Linked ρ n σ₀ σ w w') (hl : l' → l ∧ FrozenLeft ρ w w')
    (hr : r' → r ∧ FrozenRight ρ w w') (hs : w.context.frame.slot? a = some ⟨e, none⟩)
    (hs' : w'.context.frame.slot? (ρ.slot a) = some ⟨e', none⟩) :
    (e.evalWith q w.chain w.heap).1.Sim l' r'
      (fun x y => ∃ υ, σ.Le υ ∧ υ.Heaps ρ n (e.evalWith q w.chain w.heap).2
        (e'.evalWith q' w'.chain w'.heap).2 ∧ υ.Pair ρ x y)
      (e'.evalWith q' w'.chain w'.heap).1 := by
  have he := hT.expr? hA hB a
  rw [Frame.expr?, Frame.expr?, hs, hs'] at he
  obtain rfl : e' = e.renumber ρ := Option.some.inj he
  have hp : e.Plain n := (hA.sound hT.safe hT.sound).1.frame.slot? hs
  exact Expr.sim_evalWith hT.sim (hT.chains hA hB hk hl hr) hp (.refl σ) hk.heaps

end Pairing

omit hT in
theorem widen {u u' : World} (hk : Linked ρ n σ₀ σ w w') (hg : w.heap.Grows u.heap)
    (hg' : w'.heap.Grows u'.heap) (hs : u.heap.Sound n) (hs' : u'.heap.Sound n)
    (hi : ∀ {a x y}, u.context.frame.Frozen a x → u'.context.frame.Frozen (ρ.slot a) y →
      σ.Pair ρ x y) : Linked ρ n σ₀ (σ.widen u.heap.size u'.heap.size) u u' where
  le := hk.le.trans (Link.le_widen (hk.heaps.left ▸ hg.size) (hk.heaps.right ▸ hg'.size))
  heaps := hk.heaps.widen hg hg' hs hs'
  items := hi

section Freezing

variable (hA : w₀.Tries q log w) (hB : w₀'.Tries q' log' w') (hk : Linked ρ n σ₀ σ w w')
  (hs : w.context.frame.slot? a = some ⟨e, none⟩) {heap : Heap}
  (he : e.evalWith q w.chain w.heap = (.resolved x, heap)) {ev : Freeze} (hev : ev ∈ log')
  (hb : ev.addr = ρ.slot a)
include hA hB hk hs he hev hb

/-- When the left freezes a slot that the right has frozen too, the item it gets is paired with the
one on the right, at the time that was made. -/
theorem exists_pair : ∃ υ, (σ.restrict ev.before.heap.size).Le υ ∧
    υ.Heaps ρ n heap ev.after ∧ υ.Pair ρ x ev.item := by
  obtain ⟨⟨log₁, hB₁⟩, ⟨e', hs', he'⟩, hgrows, hfrozen⟩ := hB.freeze_of hT.safe' hT.sound' hev
  obtain ⟨hsound, hstart⟩ := hB₁.sound hT.safe' hT.sound'
  have hstep := hsound.eval hT.safe' hs' he'
  have hk₁ : Linked ρ n σ₀ (σ.restrict ev.before.heap.size) w ev.before := {
    le := hk.le.restrict hT.heaps hstart.size
    heaps := hk.heaps.restrict (hstep.1.trans hgrows) hsound.heap
    items := fun hx hy => (hk.items hx (hfrozen hy)).restrict (hsound.frame.frozen hy) }
  rw [hb] at hs'
  have hsim := hT.step hA hB₁ False False hk₁ False.elim False.elim hs hs'
  rw [he, he'] at hsim
  exact hsim

omit hA he in
/-- Objects paired so far lie apart from those that the right made for this slot. -/
theorem apart (ha : Apart ρ σ₀ σ w log') {h : Handle} (hd : σ.dom h) :
    σ.map h < ev.before.heap.size ∨ ev.after.size ≤ σ.map h := by
  obtain ⟨⟨log₁, hB₁⟩, -⟩ := hB.freeze_of hT.safe' hT.sound' hev
  rcases ha hd with hd₀ | ⟨ev', hev', b, y, hb', hy, hlow, hhigh⟩
  · rw [hk.le.map hd₀]
    exact Or.inl (Nat.lt_of_lt_of_le (hT.heaps.map_lt hd₀) (hB₁.sound hT.safe' hT.sound').2.size)
  · have hne : ev'.addr ≠ ev.addr := by
      rw [hb, hb']
      intro hab
      obtain rfl := ρ.slot_inj hab
      obtain ⟨e₁, hs₁⟩ := hy
      cases hs.symm.trans hs₁
    rcases hB.disjoint hT.safe' hT.sound' hev' hev hne with hle | hle
    · exact Or.inl (Nat.lt_of_lt_of_le hhigh hle)
    · exact Or.inr (Nat.le_trans hle hlow)

theorem exists_linked_freeze (hy : w'.context.frame.Frozen (ρ.slot a) ev.item)
    (ha : Apart ρ σ₀ σ w log') :
    ∃ τ, Linked ρ n σ₀ τ (w.freeze a x heap) w' ∧ Apart ρ σ₀ τ (w.freeze a x heap) log' := by
  obtain ⟨υ, hυ, hheaps, hxy⟩ := hT.exists_pair hA hB hk hs he hev hb
  obtain ⟨⟨log₁, hB₁⟩, -, hgrows, -⟩ := hB.freeze_of hT.safe' hT.sound' hev
  obtain ⟨hsound, hstart⟩ := hA.sound hT.safe hT.sound
  have hstart' := (hB₁.sound hT.safe' hT.sound').2
  have hgrow := hsound.eval hT.safe hs he
  have hmerge := hk.heaps.merge hυ hheaps hgrow.1 hgrows
    fun hd => hT.apart hB hk hs hev hb ha hd
  have hsub := hk.heaps.sub_merge (υ := υ)
  have hsub' := hk.heaps.merge_sub hυ
  have hcases : ∀ {h}, (σ.merge υ w.heap.size).dom h → σ.dom h ∨ ¬h < w.heap.size ∧ υ.dom h := by
    intro h hd
    change (if h < w.heap.size then σ.dom h else υ.dom h) at hd
    split at hd
    · exact Or.inl hd
    · exact Or.inr ⟨‹_›, hd⟩
  refine ⟨σ.merge υ w.heap.size, ⟨⟨⟨?_, ?_⟩, ?_, ?_, ?_⟩, hmerge, ?_⟩, ?_⟩
  · exact fun hd => hsub.dom (hk.le.dom hd)
  · exact fun hd => (hsub.map (hk.le.dom hd)).trans (hk.le.map hd)
  · exact Nat.le_trans hk.le.left hυ.left
  · exact hk.le.right
  · intro h hd
    rcases hcases hd with hd | ⟨hn, hd⟩
    · rw [hsub.map hd]
      exact hk.le.fresh hd
    · have hpast := hk.heaps.fresh_merge hυ hd hn
      rw [hsub'.map hd, hT.heaps.left, hT.heaps.right]
      exact Or.inr ⟨Nat.le_trans hstart.size (Nat.le_of_not_lt hn),
        Nat.le_trans hstart'.size hpast⟩
  · intro b z z' hz hz'
    rcases (World.frozen_freeze hs).mp hz with ⟨rfl, rfl⟩ | hz
    · obtain rfl := hy.unique hz'
      exact hxy.mono hsub'
    · exact (hk.items hz hz').mono hsub
  · intro h hd
    rcases hcases hd with hd | ⟨hn, hd⟩
    · rw [hsub.map hd]
      refine (ha hd).imp_right ?_
      rintro ⟨ev', hev', b, z, hb', hz, hrange⟩
      exact ⟨ev', hev', b, z, hb', (World.frozen_freeze hs).mpr (Or.inr hz), hrange⟩
    · rw [hsub'.map hd]
      exact Or.inr ⟨ev, hev, a, x, hb, (World.frozen_freeze hs).mpr (Or.inl ⟨rfl, rfl⟩),
        hk.heaps.fresh_merge hυ hd hn, hheaps.map_lt hd⟩

end Freezing

/-- Any two runs agree on what both have frozen. -/
theorem exists_linked (hA : w₀.Tries q log w) (hB : w₀'.Tries q' log' w') :
    ∃ σ, Linked ρ n σ₀ σ w w' ∧ Apart ρ σ₀ σ w log' := by
  obtain ⟨hsound', hgrows'⟩ := hB.sound hT.safe' hT.sound'
  induction hA with
  | start =>
    have hk : Linked ρ n σ₀ σ₀ w₀ w₀' := ⟨.refl σ₀, hT.heaps, fun hx => absurd hx hT.fresh⟩
    exact ⟨_, widen hk (.refl _) hgrows' hT.sound.heap hsound'.heap fun hx => absurd hx hT.fresh,
      Or.inl⟩
  | @wait log w a e heap hA hs he ih =>
    obtain ⟨σ, hk, ha⟩ := ih
    have hgrow := (hA.sound hT.safe hT.sound).1.eval hT.safe hs he
    exact ⟨_, widen hk hgrow.1 (.refl _) hgrow.2.1 hsound'.heap hk.items, ha⟩
  | @freeze log w a e x heap hA hs he ih =>
    obtain ⟨σ, hk, ha⟩ := ih
    by_cases hy : ∃ y, w'.context.frame.Frozen (ρ.slot a) y
    · obtain ⟨y, hy⟩ := hy
      obtain ⟨ev, hev, hb, rfl⟩ := hB.mem_log hT.fresh' hy
      exact hT.exists_linked_freeze hA hB hk hs he hev hb hy ha
    · have hgrow := (hA.sound hT.safe hT.sound).1.eval hT.safe hs he
      refine ⟨_, widen hk hgrow.1 (.refl _) hgrow.2.1 hsound'.heap fun {b z z'} hz hz' => ?_, ?_⟩
      · rcases (World.frozen_freeze hs).mp hz with ⟨rfl, rfl⟩ | hz
        · exact absurd ⟨z', hz'⟩ hy
        · exact hk.items hz hz'
      · intro h hd
        refine (ha hd).imp_right ?_
        rintro ⟨ev', hev', b, z, hb', hz, hrange⟩
        exact ⟨ev', hev', b, z, hb', (World.frozen_freeze hs).mpr (Or.inr hz), hrange⟩

end Twins

end Comptime
