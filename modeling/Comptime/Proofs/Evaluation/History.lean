import Comptime.Proofs.Evaluation.Soundness
import Comptime.Proofs.Evaluation.Tries

/-! What stays true along a run of tries: the world is sound, frozen slots keep their items, and the
objects made for one slot lie apart from those made for another. -/
namespace Comptime

namespace Frame

variable {f : Frame} {n m : Nat} {a : SlotAddr} {x : Item}

theorem Sound.freeze (hf : f.Sound n m) (hx : x.Within (· < m)) : (f.freeze a x).Sound n m :=
  sound_iff.mpr ((sound_iff.mp hf).freeze hx)

theorem Sound.frozen (hf : f.Sound n m) (hx : f.Frozen a x) : x.Within (· < m) := by
  obtain ⟨e, hs⟩ := hx
  obtain ⟨g, hg, hi⟩ := Option.bind_eq_some_iff.mp hs
  exact hf.item (List.mem_of_find?_eq_some hg) (Array.mem_of_getElem? hi) rfl

theorem Sound.slot? (hf : f.Sound n m) {s : Slot} (hs : f.slot? a = some s) : s.expr.Plain n := by
  obtain ⟨g, hg, hi⟩ := Option.bind_eq_some_iff.mp hs
  exact hf.expr (List.mem_of_find?_eq_some hg) (Array.mem_of_getElem? hi)

end Frame

namespace World

structure Sound (n : Nat) (w : World) : Prop where
  heap : w.heap.Sound n
  chain : Chain.Sound n w.heap.size w.chain

variable {n : Nat} {q : Qualifier} {w₀ w : World} {a b : SlotAddr} {e : Expr} {x y : Item}
  {log : List Freeze} {heap : Heap}

theorem Sound.frame (hw : w.Sound n) : w.context.frame.Sound n w.heap.size :=
  hw.chain.frame List.mem_cons_self

/-- The evaluation of a plain expression only adds to the heap, keeps it sound, and yields a stored
item. -/
theorem Sound.evalPlain (hq : Qualifier.Keeps (.below n) q) (hw : w.Sound n) (he : e.Plain n)
    {r : Outcome Item} (hev : e.evalWith q w.chain w.heap = (r, heap)) :
    w.heap.Grows heap ∧ heap.Sound n ∧ ∀ x, r = .resolved x → x.Within (· < heap.size) := by
  have hh : w.heap.Obeys (.below n) := Heap.obeys_below.mpr hw.heap
  have hkeeps := Expr.keeps_evalWith hq hw.chain.obeys (e.admits_below.mpr he) w.heap hh
    (Nat.le_refl _)
  rw [hev] at hkeeps
  exact ⟨hkeeps.1.grows, Heap.obeys_below.mp (hh.extends hkeeps.1), hkeeps.2⟩

theorem Sound.eval (hq : Qualifier.Keeps (.below n) q) (hw : w.Sound n)
    (hs : w.context.frame.slot? a = some ⟨e, none⟩) {r : Outcome Item}
    (hev : e.evalWith q w.chain w.heap = (r, heap)) :
    w.heap.Grows heap ∧ heap.Sound n ∧ ∀ x, r = .resolved x → x.Within (· < heap.size) :=
  hw.evalPlain hq (hw.frame.slot? hs) hev

theorem Sound.freeze (hw : w.Sound n) (hg : w.heap.Grows heap) (hs : heap.Sound n)
    (hx : x.Within (· < heap.size)) : (w.freeze a x heap).Sound n where
  heap := hs
  chain := by
    have hc := hw.chain.le hg.size
    refine ⟨hc.base, fun hf => ?_⟩
    rcases List.mem_cons.mp hf with rfl | hf
    · exact (hc.frame List.mem_cons_self).freeze hx
    · exact hc.frame (List.mem_cons_of_mem _ hf)

/-- Runs of tries keep the world sound, and only add to the heap. -/
theorem Tries.sound (hq : Qualifier.Keeps (.below n) q) (h₀ : w₀.Sound n) (ht : Tries q w₀ log w) :
    w.Sound n ∧ w₀.heap.Grows w.heap := by
  induction ht with
  | start => exact ⟨h₀, .refl _⟩
  | freeze ht hs he ih =>
    obtain ⟨hg, hsound, hx⟩ := ih.1.eval hq hs he
    exact ⟨ih.1.freeze hg hsound (hx _ rfl), ih.2.trans hg⟩
  | wait ht hs he ih =>
    obtain ⟨hg, hsound, -⟩ := ih.1.eval hq hs he
    exact ⟨⟨hsound, ih.1.chain.le hg.size⟩, ih.2.trans hg⟩

/-- One freezing of a run: it was tried in a world of that run, where frozen slots had the items
they still have. -/
structure Freeze.Of (q : Qualifier) (w₀ : World) (w : World) (ev : Freeze) : Prop where
  tries : ∃ log, Tries q w₀ log ev.before
  eval : ∃ e, ev.before.context.frame.slot? ev.addr = some ⟨e, none⟩ ∧
    e.evalWith q ev.before.chain ev.before.heap = (.resolved ev.item, ev.after)
  grows : ev.after.Grows w.heap
  frozen : ∀ {b y}, ev.before.context.frame.Frozen b y → w.context.frame.Frozen b y

theorem Tries.freeze_of (hq : Qualifier.Keeps (.below n) q) (h₀ : w₀.Sound n)
    (ht : Tries q w₀ log w) {ev : Freeze} (hev : ev ∈ log) : Freeze.Of q w₀ w ev := by
  induction ht with
  | start => cases hev
  | @freeze log w a e x heap ht hs he ih =>
    have hstep := (ht.sound hq h₀).1.eval hq hs he
    rcases List.mem_cons.mp hev with rfl | hev
    · exact ⟨⟨log, ht⟩, ⟨e, hs, he⟩, .refl _, fun hb => (frozen_freeze hs).mpr (Or.inr hb)⟩
    · have := ih hev
      exact ⟨this.tries, this.eval, this.grows.trans hstep.1,
        fun hb => (frozen_freeze hs).mpr (Or.inr (this.frozen hb))⟩
  | @wait log w a e heap ht hs he ih =>
    have hstep := (ht.sound hq h₀).1.eval hq hs he
    have := ih hev
    exact ⟨this.tries, this.eval, this.grows.trans hstep.1, this.frozen⟩

/-- A frozen slot was frozen by the run, unless it was from the start. -/
theorem Tries.mem_log (ht : Tries q w₀ log w) (hn : ∀ {b y}, ¬w₀.context.frame.Frozen b y)
    (hb : w.context.frame.Frozen b y) : ∃ ev ∈ log, ev.addr = b ∧ ev.item = y := by
  induction ht with
  | start => exact absurd hb hn
  | @freeze log w a e x heap ht hs he ih =>
    rcases (frozen_freeze hs).mp hb with ⟨rfl, rfl⟩ | hb
    · exact ⟨_, List.mem_cons_self, rfl, rfl⟩
    · obtain ⟨ev, hev, hab⟩ := ih hb
      exact ⟨ev, List.mem_cons_of_mem _ hev, hab⟩
  | wait ht hs he ih => exact ih hb

/-- What is made for one slot comes after or before what is made for another. -/
theorem Tries.disjoint (hq : Qualifier.Keeps (.below n) q) (h₀ : w₀.Sound n) (ht : Tries q w₀ log w)
    {ev ev' : Freeze} (hev : ev ∈ log) (hev' : ev' ∈ log) (hne : ev.addr ≠ ev'.addr) :
    ev.after.size ≤ ev'.before.heap.size ∨ ev'.after.size ≤ ev.before.heap.size := by
  induction ht with
  | start => cases hev
  | @freeze log w a e x heap ht hs he ih =>
    rcases List.mem_cons.mp hev with rfl | hev
    · rcases List.mem_cons.mp hev' with rfl | hev'
      · exact absurd rfl hne
      · exact Or.inr (ht.freeze_of hq h₀ hev').grows.size
    · rcases List.mem_cons.mp hev' with rfl | hev'
      · exact Or.inl (ht.freeze_of hq h₀ hev).grows.size
      · exact ih hev hev'
  | wait ht hs he ih => exact ih hev hev'

end World

end Comptime
