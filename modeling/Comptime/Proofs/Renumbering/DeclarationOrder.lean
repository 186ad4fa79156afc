import Comptime.Proofs.Renumbering.Settlement
import Comptime.Proofs.Renumbering.Specialization
import Mathlib

/-! The order of declarations. A unit without lazy reads compiles to the same modules whatever ids
its groups have, and so in whatever order its slots are tried. -/
namespace Comptime

variable {d : Draft} {ρ : Renumbering} {n : Nat} {σ : Link} {f f' : Frame} {q : Qualifier}
  {w w' : World} {x : Item}

section Start

namespace Draft

/-- Every object that is handed in stands for itself. -/
def link (d : Draft) : Link where
  dom h := h < d.heap.size
  map := id
  left := d.heap.size
  right := d.heap.size

theorem size_renumber : (d.renumber ρ).heap.size = d.heap.size := by
  simp [renumber, Heap.size]

theorem mirrors_renumber (hc : d.heap.Closed) :
    d.heap.Mirrors (ρ.renaming id) (· < d.heap.size) (d.renumber ρ).heap where
  inj _ _ he := he
  closed hd hk := hc _ hd _ hk
  get? _ := by simp [renumber, Heap.get?, Renumbering.renaming]

theorem Plain.heaps (hd : d.Plain) :
    d.link.Heaps ρ d.heap.size d.heap (d.renumber ρ).heap where
  mirrors := mirrors_renumber hd.closed
  lt hd := hd
  left := rfl
  right := size_renumber.symm
  sound := ⟨Nat.le_refl _, hd.closed, hd.objects⟩
  sound' := by
    refine ⟨Nat.le_of_eq size_renumber.symm, fun h hlt k hk => ?_, fun {h o} ho => ?_⟩
    · rw [size_renumber] at hlt ⊢
      have hrefs : (d.renumber ρ).heap.refs h = (d.heap.refs h).map id :=
        (mirrors_renumber hd.closed).refs hlt
      rw [hrefs, List.map_id] at hk
      exact hd.closed h hlt k hk
    · have hget : (d.renumber ρ).heap.get? h =
          (d.heap.get? h).map (Object.rename (ρ.renaming id)) := by
        simp [renumber, Heap.get?]
      rw [hget] at ho
      obtain ⟨p, hp, rfl⟩ := Option.map_eq_some_iff.mp ho
      exact Link.plain_rename (hd.objects hp) id

end Draft

theorem Link.Blank.addGroup (hb : σ.Blank ρ n f f') {g : Group} (hg : g.Plain n) :
    σ.Blank ρ n (f.addGroup g) (f'.addGroup (g.renumber ρ)) where
  frames := hb.frames.addGroup g
  sound := hb.sound.addGroup hg
  sound' := hb.sound'.addGroup (GroupOf.plain_renumber hg)
  fresh hx := hb.fresh (Frame.frozen_addGroup hx)
  fresh' hx := hb.fresh' (Frame.frozen_addGroup hx)

theorem Link.Blank.declare (hb : d.link.Blank ρ d.heap.size f f') (v : VarId) {b : Binding}
    (hi : ∀ x, b = .item x → x.Within (· < d.heap.size)) :
    d.link.Blank ρ d.heap.size (f.declare v b) (f'.declare v (b.renumber ρ)) where
  frames := by
    refine hb.frames.declare v ?_
    cases b with
    | item x => exact ⟨hi x rfl, Item.rename_congr (fun _ _ => rfl) rfl⟩
    | slot a => exact rfl
  sound := hb.sound.declare v hi
  sound' := by
    refine hb.sound'.declare v fun y hy => ?_
    cases b <;> cases hy
    exact Item.within_rename (hi _ rfl)
  fresh := hb.fresh
  fresh' := hb.fresh'

theorem Draft.Plain.blank (hd : d.Plain) :
    d.link.Blank ρ d.heap.size d.frame (d.renumber ρ).frame := by
  have hgroups : ∀ (gs : List Group) {f f' : Frame}, (∀ g ∈ gs, g.Plain d.heap.size) →
      d.link.Blank ρ d.heap.size f f' → d.link.Blank ρ d.heap.size (gs.foldl Frame.addGroup f)
        ((gs.map (GroupOf.renumber ρ)).foldl Frame.addGroup f') := by
    intro gs
    induction gs with
    | nil => exact fun _ hb => hb
    | cons g gs ih =>
      intro f f' hg hb
      rw [List.forall_mem_cons] at hg
      exact ih hg.2 (hb.addGroup hg.1)
  have hvars : ∀ (vs : List (VarId × Binding)) {f f' : Frame},
      (∀ b ∈ vs, ∀ x, b.2 = .item x → x.Within (· < d.heap.size)) →
      d.link.Blank ρ d.heap.size f f' →
      d.link.Blank ρ d.heap.size (vs.foldl (fun f b => f.declare b.1 b.2) f)
        ((vs.map fun b => (b.1, b.2.renumber ρ)).foldl (fun f b => f.declare b.1 b.2) f') := by
    intro vs
    induction vs with
    | nil => exact fun _ hb => hb
    | cons v vs ih =>
      intro f f' hv hb
      rw [List.forall_mem_cons] at hv
      exact ih hv.2 (hb.declare v.1 hv.1)
  refine hvars d.vars (fun b hb x hx => ?_) (hgroups d.groups (fun g hg => hd.groups hg)
    Link.blank_empty)
  obtain ⟨v, b⟩ := b
  cases hx
  exact hd.vars hb

end Start

section Frozen

theorem Link.PairSlot.frozen {s : Option Slot} {e : Expr}
    (h : σ.PairSlot ρ True True (some ⟨e, some x⟩) s) :
    ∃ e' y, s = some ⟨e', some y⟩ ∧ σ.Pair ρ x y := by
  match s with
  | none => exact h.elim
  | some ⟨e', none⟩ => exact absurd trivial h.2
  | some ⟨e', some y⟩ => exact ⟨e', y, rfl, h.2⟩

theorem Link.PairSlot.frozen' {s : Option Slot} {e : Expr} {y : Item}
    (h : σ.PairSlot ρ True True s (some ⟨e, some y⟩)) :
    ∃ e' x, s = some ⟨e', some x⟩ ∧ σ.Pair ρ x y := by
  match s with
  | none => exact h.elim
  | some ⟨e', none⟩ => exact absurd trivial h.2
  | some ⟨e', some x⟩ => exact ⟨e', x, rfl, h.2⟩

/-- The items of paired frames are paired, in some order. -/
theorem Link.Frames.rootsMirror (hf : σ.Frames ρ True True f f') :
    RootsMirror (ρ.renaming σ.map) σ.dom f.items f'.items := by
  have hpair : ∀ {a x}, f.Frozen a x → ∃ y, f'.Frozen (ρ.slot a) y ∧ σ.Pair ρ x y := by
    rintro a x ⟨e, hs⟩
    obtain ⟨e', y, hs', hxy⟩ := (hs ▸ hf.slot a).frozen
    exact ⟨y, ⟨e', hs'⟩, hxy⟩
  refine .of_items (fun x hx => ?_) fun y => ?_
  · obtain ⟨a, hx⟩ := Frame.mem_items.mp hx
    obtain ⟨y, -, hxy⟩ := hpair hx
    exact hxy.1
  · rw [Frame.mem_items]
    constructor
    · rintro ⟨b, e', hs'⟩
      obtain ⟨a, rfl⟩ := hf.range hs'
      obtain ⟨e, x, hs, hxy⟩ := (hs' ▸ hf.slot a).frozen'
      exact ⟨x, Frame.mem_items.mpr ⟨a, e, hs⟩, hxy.2.symm⟩
    · rintro ⟨x, hx, rfl⟩
      obtain ⟨a, hx⟩ := Frame.mem_items.mp hx
      obtain ⟨y, hy, hxy⟩ := hpair hx
      exact ⟨ρ.slot a, hxy.2 ▸ hy⟩

end Frozen

section Slots

/-- A world that resolves is one whose frame resolves inside its chain. -/
theorem World.resolveInside_of_ok {k : Nat} (h : World.resolveWith q w = (.ok k, w')) :
    resolveInside q w.context.outer w.context.frame w.heap = (.resolved w'.chain, w'.heap) := by
  obtain ⟨fix, u, hs, h⟩ := Job.bind_eq_ok.mp h
  split at h
  · rename_i hc
    cases h
    have hs' : World.stallWith q ⟨⟨w.context.frame, w.context.outer⟩, w.heap⟩ = _ := hs
    rw [resolveInside, hs']
    exact if_pos hc
  · obtain ⟨_, _, _, h⟩ := Job.bind_eq_ok.mp h
    cases h

theorem World.resolveInside_of_error {e : Fault} (h : World.resolveWith q w = (.error e, w'))
    (chain : Chain) :
    (resolveInside q w.context.outer w.context.frame w.heap).1 ≠ .resolved chain := by
  rcases World.bind_eq_error.mp h with hs | ⟨fix, u, hs, h⟩ <;>
    have hs' : World.stallWith q ⟨⟨w.context.frame, w.context.outer⟩, w.heap⟩ = _ := hs <;>
    rw [resolveInside, hs']
  · exact fun he => nomatch he
  · split at h
    · cases h
    · rename_i hc
      simp [hc]

theorem Draft.Plain.endAlike (hd : d.Plain) (ρ : Renumbering) :
    d.EndAlike (d.renumber ρ) (World.resolve ⟨{ frame := d.frame }, d.heap⟩)
      (World.resolve ⟨{ frame := (d.renumber ρ).frame }, (d.renumber ρ).heap⟩) := by
  have hb := hd.blank (ρ := ρ)
  have hc : d.link.Chains ρ d.heap.size True True [] [] :=
    ⟨.nil, fun hh => ⟨hh, rfl⟩, ⟨Nat.le_refl _, fun hf => nomatch hf⟩,
      ⟨Nat.le_refl _, fun hf => nomatch hf⟩⟩
  have hsim := sim_resolveInside (Qualifier.sim_qualifyWithin depthLimit)
    (Qualifier.keeps_qualifyWithin depthLimit) (Qualifier.keeps_qualifyWithin depthLimit) hc hb
    (.refl d.link) hd.heaps
  match hw : World.resolve ⟨{ frame := d.frame }, d.heap⟩,
    hw' : World.resolve ⟨{ frame := (d.renumber ρ).frame }, (d.renumber ρ).heap⟩ with
  | (.error e, w), (.error e', w') => trivial
  | (.error e, w), (.ok k', w') =>
    rw [World.resolveInside_of_ok hw'] at hsim
    obtain ⟨chain, hr, -⟩ := hsim.resolved'
    exact World.resolveInside_of_error hw chain hr
  | (.ok k, w), (.error e', w') =>
    rw [World.resolveInside_of_ok hw] at hsim
    obtain ⟨chain, hr', -⟩ := hsim.resolved
    exact World.resolveInside_of_error hw' chain hr'
  | (.ok k, w), (.ok k', w') =>
    rw [World.resolveInside_of_ok hw, World.resolveInside_of_ok hw'] at hsim
    obtain ⟨σ, hle, hh, hchains⟩ := hsim
    have hframe : σ.Frames ρ True True w.context.frame w'.context.frame := by
      cases hchains.frames with
      | cons hf _ => exact hf
    have hprogram : σ.PairStmts ρ d.program (d.renumber ρ).program := by
      refine ⟨fun x hx => (hd.program hx).mono fun h hh => (hchains.based hh).1, ?_⟩
      refine Stmt.renameAll_congr (fun x hx => ?_) rfl
      exact Item.rename_congr (fun h hh => (hchains.based (hd.program hx h hh)).2.symm) rfl
    exact ⟨ρ.renaming σ.map, σ.dom, {
      settling := Chain.settling hchains.frames hh.mirrors
      roots := hframe.rootsMirror
      program := Chain.agrees_settledProgram hchains.frames hh.mirrors hprogram
      generic := fun site => by cases site; rfl }⟩

/-- The ids of groups, and with them the order in which slots are tried, have no bearing on the
modules of a unit without lazy reads. -/
theorem compile_renumber (hd : d.Plain) (ρ : Renumbering) (options : Options) (m : Modules) :
    compile (d.renumber ρ) options = .ok m ↔ compile d options = .ok m :=
  (compile_eq_ok_iff_of_endAlike (hd.endAlike ρ) options m).symm

end Slots

section Examples

/-- Two groups exchange their ids. -/
def Renumbering.swap (g k : GroupId) : Renumbering := ⟨Equiv.swap g k, (Equiv.swap g k).injective⟩

/-- A test of an item that is read lazily. -/
def lazyUnit : Draft where
  name := "lazy"
  groups := [⟨1, "test", [.contains (.type .bool) (.lazySlot ⟨0, 0⟩)]⟩,
    ⟨0, "value", [.lit (.bool true)]⟩]
  program := [.exportConst "x" (.comptime ⟨1, 0⟩)]

def primaryOnly (primary : String) : Modules where
  primary := primary
  companion := ""
  primaryFile := "main.js"
  companionFile := "items.js"
  patches := 0
  tracked := 0

theorem resolve_lazyUnit (q : Qualifier) :
    World.resolveWith q ⟨{ frame := lazyUnit.frame }, lazyUnit.heap⟩ = (.ok 1,
      ⟨{ frame := { groups := [
          ⟨0, "value", #[⟨.lit (.bool true), some (.bool true)⟩]⟩,
          ⟨1, "test", #[⟨.contains (.type .bool) (.lazySlot ⟨0, 0⟩), some (.bool true)⟩]⟩] } },
        {}⟩) := by
  cbv

theorem resolve_lazyUnit_swapped (q : Qualifier) :
    World.resolveWith q ⟨{ frame := (lazyUnit.renumber (.swap 0 1)).frame },
      (lazyUnit.renumber (.swap 0 1)).heap⟩ = (.ok 1,
      ⟨{ frame := { groups := [
          ⟨0, "test", #[⟨.contains (.type .bool) (.lazySlot ⟨1, 0⟩), some (.bool false)⟩]⟩,
          ⟨1, "value", #[⟨.lit (.bool true), some (.bool true)⟩]⟩] } },
        {}⟩) := by
  cbv

end Examples

end Comptime
