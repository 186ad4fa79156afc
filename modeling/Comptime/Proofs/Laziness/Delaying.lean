import Comptime.Proofs.Evaluation.Abreast
import Comptime.Proofs.Evaluation.History
import Comptime.Proofs.Laziness.Storing

/-! The slots of a discreet unit are frozen in the same sweeps as those of the delayed one. -/
namespace Comptime

open List (Forall₂)

theorem Chain.readSlot_of_slot? {f : Frame} {a : SlotAddr} {u : Slot} (hu : f.slot? a = some u) :
    Chain.readSlot [f] a = u.item.elim .pending .resolved := by
  obtain ⟨g, hg, -⟩ := Option.bind_eq_some_iff.mp hu
  rw [Chain.readSlot_cons, hg, if_pos Option.isSome_some, hu]
  obtain ⟨e, item⟩ := u
  cases item <;> rfl

theorem Chain.readSlot_of_slot?_none {f : Frame} {a : SlotAddr} (hu : f.slot? a = none) :
    Chain.readSlot [f] a =
      .failed (if (f.group? a.group).isSome then .noSlot a else .noGroup a.group) := by
  rw [Chain.readSlot_cons, hu]
  split <;> rfl

namespace Sight

section Frames

variable (s t : Sight) (R : Item → Item → Prop) (n : Nat) (known : SlotAddr → Bool)

/-- A slot beside the delayed one, and what they are frozen with. If the slot is in sight, so is
what it is frozen with by now. -/
structure Slots (a : SlotAddr) (u u' : Slot) : Prop where
  expr : u'.expr = u.expr.delayed known
  discreet : u.expr.Discreet s n
  clear : s.slot a → u.expr.Clear s
  item : Option.Rel R u.item u'.item
  shown : s.slot a → u'.item = u.item ∧ ∀ x, u.item = some x → t.Shows x

structure Groups (g g' : GroupState) : Prop where
  id : g'.id = g.id
  size : g'.slots.size = g.slots.size
  slot : ∀ {i u u'}, g.slots[i]? = some u → g'.slots[i]? = some u' →
    s.Slots t R n known ⟨g.id, i⟩ u u'

structure Frames (f f' : Frame) : Prop where
  widens : s.Widens t
  groups : Forall₂ (s.Groups t R n known) f.groups f'.groups
  vars : f'.vars = f.vars
  shows : ∀ {v x}, (v, Binding.item x) ∈ f.vars → s.var v → t.Shows x
  bound : ∀ {v a}, (v, Binding.slot a) ∈ f.vars → s.var v → s.slot a

variable {s t R n known} {t' : Sight} {Q : Item → Item → Prop} {f f' : Frame} {a : SlotAddr}
  {u u' : Slot} {g g' : GroupState} {x y : Item}

theorem Slots.mono (hu : s.Slots t R n known a u u') (hw : t.Widens t')
    (hR : ∀ x y, R x y → Q x y) : s.Slots t' Q n known a u u' where
  expr := hu.expr
  discreet := hu.discreet
  clear := hu.clear
  item := by
    have hitem := hu.item
    revert hitem
    cases u.item <;> cases u'.item <;> intro h <;> cases h
    case none.none.none => exact .none
    case some.some.some x y h => exact .some (hR x y h)
  shown ha := by
    obtain ⟨heq, hx⟩ := hu.shown ha
    exact ⟨heq, fun x hi => (hx x hi).widen hw⟩

theorem Frames.mono (hf : s.Frames t R n known f f') (hw : t.Widens t')
    (hR : ∀ x y, R x y → Q x y) : s.Frames t' Q n known f f' where
  widens := hf.widens.trans hw
  groups := hf.groups.imp fun _ _ hg =>
    ⟨hg.id, hg.size, fun hu hu' => (hg.slot hu hu').mono hw hR⟩
  vars := hf.vars
  shows hv hs := (hf.shows hv hs).widen hw
  bound := hf.bound

/-- Both frames have a group of an id, or neither has. -/
theorem Frames.group? (hf : s.Frames t R n known f f') (id : GroupId) :
    Option.Rel (fun g g' => g.id = id ∧ s.Groups t R n known g g') (f.group? id)
      (f'.group? id) := by
  have hfind : ∀ {gs gs' : List GroupState}, Forall₂ (s.Groups t R n known) gs gs' →
      Option.Rel (fun g g' => g.id = id ∧ s.Groups t R n known g g')
        (gs.find? fun g => g.id == id) (gs'.find? fun g => g.id == id) := by
    intro gs gs' h
    induction h with
    | nil => exact .none
    | @cons g g' gs gs' hg _ ih =>
      rw [List.find?_cons, List.find?_cons, hg.id]
      cases hid : g.id == id with
      | true => exact .some ⟨beq_iff_eq.mp hid, hg⟩
      | false => exact ih
  exact hfind hf.groups

theorem Frames.isSome_group? (hf : s.Frames t R n known f f') (id : GroupId) :
    (f'.group? id).isSome = (f.group? id).isSome := by
  have h := hf.group? id
  revert h
  cases f.group? id <;> cases f'.group? id <;> intro h <;> cases h <;> rfl

theorem Frames.slot? (hf : s.Frames t R n known f f') (a : SlotAddr) :
    Option.Rel (s.Slots t R n known a) (f.slot? a) (f'.slot? a) := by
  have h := hf.group? a.group
  unfold Frame.slot?
  revert h
  cases f.group? a.group <;> cases f'.group? a.group <;> intro h <;> cases h
  case none.none.none => exact .none
  case some.some.some g g' h =>
    obtain ⟨hid, hg⟩ := h
    change Option.Rel _ g.slots[a.slot]? g'.slots[a.slot]?
    cases hu : g.slots[a.slot]? with
    | none =>
      rw [Array.getElem?_eq_none (hg.size ▸ Array.getElem?_eq_none_iff.mp hu)]
      exact .none
    | some u =>
      have hlt : a.slot < g'.slots.size := hg.size ▸ (Array.getElem?_eq_some_iff.mp hu).1
      have hu' := Array.getElem?_eq_getElem hlt
      rw [hu']
      have hslot := hg.slot hu hu'
      rw [hid] at hslot
      exact .some hslot

/-- What reading a slot can give, in both frames. -/
theorem Frames.readSlot (hf : s.Frames t R n known f f') (a : SlotAddr) :
    (∃ x y, Chain.readSlot [f] a = .resolved x ∧ Chain.readSlot [f'] a = .resolved y ∧ R x y ∧
        (s.slot a → y = x ∧ t.Shows x)) ∨
      (Chain.readSlot [f] a = .pending ∧ Chain.readSlot [f'] a = .pending) ∨
      (f.slot? a = none ∧
        ∃ e, Chain.readSlot [f] a = .failed e ∧ Chain.readSlot [f'] a = .failed e) := by
  have hslot := hf.slot? a
  revert hslot
  cases hu : f.slot? a <;> cases hu' : f'.slot? a <;> intro hslot <;> cases hslot
  case none.none.none =>
    have hread := Chain.readSlot_of_slot?_none hu
    have hread' := Chain.readSlot_of_slot?_none hu'
    rw [hf.isSome_group?] at hread'
    exact Or.inr (Or.inr ⟨rfl, _, hread, hread'⟩)
  case some.some.some u u' hslot =>
    obtain ⟨e, item⟩ := u
    obtain ⟨e', item'⟩ := u'
    obtain ⟨-, -, -, hitem, hshown⟩ := hslot
    cases hitem with
    | none =>
      exact Or.inr (Or.inl ⟨Chain.readSlot_of_slot? hu, Chain.readSlot_of_slot? hu'⟩)
    | @some x y hxy =>
      refine Or.inl ⟨x, y, Chain.readSlot_of_slot? hu, Chain.readSlot_of_slot? hu', hxy,
        fun ha => ?_⟩
      obtain ⟨heq, hx⟩ := hshown ha
      exact ⟨Option.some.inj heq, hx x rfl⟩

theorem Frames.sim_readSlot (hf : s.Frames t R n known f f') (a : SlotAddr) :
    (Chain.readSlot [f] a).Sim True True R (Chain.readSlot [f'] a) := by
  obtain ⟨x, y, hx, hy, hxy, -⟩ | ⟨hx, hy⟩ | ⟨-, e, hx, hy⟩ := hf.readSlot a <;> rw [hx, hy]
  · exact hxy
  · trivial
  · trivial

/-- A slot in sight reads the same in both frames. -/
theorem Frames.shown (hf : s.Frames t R n known f f') (ha : t.slot a) :
    Chain.readSlot [f'] a = Chain.readSlot [f] a ∧
      ∀ x, Chain.readSlot [f] a = .resolved x → t.Shows x := by
  obtain ⟨x, y, hx, hy, -, hs⟩ | ⟨hx, hy⟩ | ⟨-, e, hx, hy⟩ := hf.readSlot a <;> rw [hx, hy]
  · obtain ⟨rfl, hshows⟩ := hs (hf.widens.slot.mp ha)
    refine ⟨rfl, ?_⟩
    rintro _ ⟨⟩
    exact hshows
  · exact ⟨rfl, by rintro x ⟨⟩⟩
  · exact ⟨rfl, by rintro x ⟨⟩⟩

/-- So does a variable in sight, since it is bound to what is. -/
theorem Frames.shownVar (hf : s.Frames t R n known f f') {v : VarId} (hv : t.var v) :
    Chain.readVar [f'] v = Chain.readVar [f] v ∧
      ∀ x, Chain.readVar [f] v = .resolved (some x) → t.Shows x := by
  have hsight : s.var v := hf.widens.var.mp hv
  simp only [Chain.readVar, hf.vars]
  cases hb : f.vars.lookup v with
  | none => exact ⟨rfl, fun x hx => by cases hx⟩
  | some b =>
    have hmem := f.mem_vars_of_lookup hb
    cases b with
    | item x =>
      refine ⟨rfl, ?_⟩
      rintro _ ⟨⟩
      exact hf.shows hmem hsight
    | slot a =>
      obtain ⟨heq, hx⟩ := hf.shown (hf.widens.slot.mpr (hf.bound hmem hsight))
      simp only [heq]
      refine ⟨trivial, fun x hread => ?_⟩
      cases hr : Chain.readSlot [f] a with
      | resolved y =>
        rw [hr] at hread
        cases hread
        exact hx x hr
      | pending | failed e =>
        rw [hr] at hread
        cases hread

/-- What is read in the frames is related, if placeholders are to what their slots hold. -/
theorem Frames.chains (hf : s.Frames t R n known f f') (hR : ∀ x, R x x)
    (hhole : ∀ {a x y}, Chain.readSlot [f'] a = .resolved y → R x y → R x (.hole (.slot a)))
    (hk : ∀ a, known a = (f.slot? a).isSome) : t.Chains R known [f] [f'] := by
  refine ⟨hR, hf.sim_readSlot, fun v => ?_, fun {a x} hx => ?_, fun {a} => ?_, hf.shown,
    hf.shownVar⟩
  · simp only [Chain.readVar, hf.vars]
    cases f.vars.lookup v with
    | none => exact .none
    | some b =>
      cases b with
      | item x => exact .some (hR x)
      | slot a => exact (hf.sim_readSlot a).bind fun x y hxy => .some hxy
  · have hread := hf.sim_readSlot a
    rw [hx] at hread
    obtain ⟨y, hy, hxy⟩ := hread.resolved
    exact hhole hy hxy
  · rw [hk, Option.isSome_iff_ne_none]
    refine ⟨fun hne e he => ?_, fun h hnone => h _ (Chain.readSlot_of_slot?_none hnone)⟩
    obtain ⟨x, y, hx, -⟩ | ⟨hx, -⟩ | ⟨hnone, -⟩ := hf.readSlot a
    · cases hx.symm.trans he
    · cases hx.symm.trans he
    · exact hne hnone

theorem Slots.freeze (hu : s.Slots t R n known a u u') (hxy : R x y)
    (hs : s.slot a → y = x ∧ t.Shows x) :
    s.Slots t R n known a { u with item := some x } { u' with item := some y } where
  expr := hu.expr
  discreet := hu.discreet
  clear := hu.clear
  item := .some hxy
  shown ha := by
    obtain ⟨rfl, hx⟩ := hs ha
    refine ⟨rfl, ?_⟩
    rintro _ ⟨⟩
    exact hx

theorem Groups.freeze (hg : s.Groups t R n known g g') (hid : g.id = a.group) (hxy : R x y)
    (hs : s.slot a → y = x ∧ t.Shows x) :
    s.Groups t R n known
      { g with slots := g.slots.modify a.slot fun u => { u with item := some x } }
      { g' with slots := g'.slots.modify a.slot fun u => { u with item := some y } } where
  id := hg.id
  size := by simp [hg.size]
  slot {i u u'} hu hu' := by
    simp only [Array.getElem?_modify] at hu hu'
    split at hu
    · rename_i hi
      rw [if_pos hi] at hu'
      obtain ⟨v, hv, rfl⟩ := Option.map_eq_some_iff.mp hu
      obtain ⟨v', hv', rfl⟩ := Option.map_eq_some_iff.mp hu'
      have haddr : (⟨g.id, i⟩ : SlotAddr) = a := by rw [hid, ← hi]
      exact (hg.slot hv hv').freeze hxy fun ha => hs (haddr ▸ ha)
    · rename_i hi
      rw [if_neg hi] at hu'
      exact hg.slot hu hu'

theorem Frames.freeze (hf : s.Frames t R n known f f') (hxy : R x y)
    (hs : s.slot a → y = x ∧ t.Shows x) :
    s.Frames t R n known (f.freeze a x) (f'.freeze a y) where
  widens := hf.widens
  groups := by
    have hfreeze : ∀ {gs gs' : List GroupState}, Forall₂ (s.Groups t R n known) gs gs' →
        Forall₂ (s.Groups t R n known) (Frame.freezeIn a x gs) (Frame.freezeIn a y gs') := by
      intro gs gs' h
      induction h with
      | nil => exact .nil
      | @cons g g' gs gs' hg hgs ih =>
        rw [Frame.freezeIn, Frame.freezeIn]
        by_cases hid : g.id == a.group
        · rw [if_pos hid, if_pos (hg.id.symm ▸ hid)]
          exact .cons (hg.freeze (beq_iff_eq.mp hid) hxy hs) hgs
        · rw [if_neg hid, if_neg (hg.id.symm ▸ hid)]
          exact .cons hg ih
    exact hfreeze hf.groups
  vars := hf.vars
  shows := hf.shows
  bound := hf.bound

end Frames

section Extending

variable {s : Sight} {R Q : Item → Item → Prop} {heap heap' heap₁ heap₁' : Heap}

theorem Heaps.mono (hh : s.Heaps R heap heap') (hR : ∀ x y, R x y → Q x y) :
    s.Heaps Q heap heap' :=
  { hh with trails := ⟨hh.trails.size, fun ho ho' => (hh.trails.object ho ho').mono hR⟩ }

variable (s) in
/-- Objects that were stored from the size `m` on, up to `k`, come into sight. -/
def extend (m k : Nat) : Sight := { s with handle := fun h => (s.handle h ∨ m ≤ h) ∧ h < k }

theorem Heaps.widens_extend (hh : s.Heaps R heap heap') (hg : heap.Grows heap₁) :
    s.Widens (s.extend heap.size heap₁.size) :=
  ⟨Iff.rfl, Iff.rfl, fun hs => ⟨Or.inl hs, Nat.lt_of_lt_of_le (hh.lt hs) hg.size⟩⟩

/-- What was stored in lockstep comes into sight. -/
theorem Heaps.extend (hh : s.Heaps R heap heap') (hR : ∀ x, R x x) (hg : heap.Grows heap₁)
    (hg' : heap'.Grows heap₁') (hl : (s.lockstep heap.size).Heaps heap₁ heap₁')
    (hc : heap₁'.Closed) : (s.extend heap.size heap₁.size).Heaps R heap₁ heap₁' := by
  have hsame : ∀ {h}, (s.extend heap.size heap₁.size).handle h →
      heap₁'.get? h = heap₁.get? h := by
    intro h hs
    have hget : heap₁'.get? h = (heap₁.get? h).map (Object.rename {}) := hl.mirrors.get? hs.1
    rwa [funext Object.rename_id, Option.map_id'] at hget
  have hwide := hh.widens_extend hg
  have htrails := (hh.of_lockstep hR hg hg' hl).trails
  refine ⟨htrails, fun hs => hs.2, hsame, fun {h o} hs ho x hx => ⟨fun k hk => ?_, ?_⟩,
    fun {h o} hs ho site hsite => ?_⟩
  · have hmem : x ∈ heap₁.items h := Heap.items_of_get? ho ▸ hx
    have hmem' : x ∈ heap₁'.items h := Heap.items_of_get? ((hsame hs).trans ho) ▸ hx
    rw [hk] at hmem hmem'
    refine ⟨hl.mirrors.closed hs.1 (mem_refsOf.mpr hmem), ?_⟩
    exact htrails.size ▸ hc.lt (mem_refsOf.mpr hmem')
  · rintro p rfl
    exact hl.reads hs.1 (Heap.items_of_get? ho ▸ hx)
  · exact admits_widen hwide (hl.generic hs.1 ho site hsite)

end Extending

section Worlds

variable (s t : Sight) (n : Nat) (known : SlotAddr → Bool)

/-- The worlds of a unit and the delayed one, with what is in sight by now. -/
structure Worlds (w w' : World) : Prop where
  outer : w.context.outer = []
  outer' : w'.context.outer = []
  frames : s.Frames t (Chain.Trails w'.chain) n known w.context.frame w'.context.frame
  heaps : t.Heaps (Chain.Trails w'.chain) w.heap w'.heap
  known : ∀ a, known a = (w.context.frame.expr? a).isSome
  sound : w'.Sound n

/-- Such worlds along a run, in which ever more objects come into sight. -/
def Runs (w w' : World) : Prop := ∃ t, s.Worlds t n known w w'

variable {s t n known} {t' : Sight} {w w' : World} {depth : Nat} {a : SlotAddr} {e : Expr}
  {heap heap' : Heap}

theorem Worlds.chains (hw : s.Worlds t n known w w') :
    t.Chains (Chain.Trails w'.chain) known w.chain w'.chain := by
  have hf := hw.frames
  have hchain : w.chain = [w.context.frame] := by rw [World.chain, Context.chain, hw.outer]
  have hchain' : w'.chain = [w'.context.frame] := by rw [World.chain, Context.chain, hw.outer']
  rw [hchain'] at hf ⊢
  rw [hchain]
  refine hf.chains (fun _ => .refl) (fun hy hxy => hxy.head hy) fun b => ?_
  rw [hw.known, Frame.expr?, Option.isSome_map]

/-- The attempts at a slot end alike. If the slot is in sight, what it yields is the same. -/
theorem Worlds.eval (hw : s.Worlds t n known w w') (he : e.Discreet s n)
    (hclear : s.slot a → e.Clear s) (hp : (e.delayed known).Plain n)
    {r r' : Outcome Item} (hr : e.evalWith (qualifyWithin depth) w.chain w.heap = (r, heap))
    (hr' : (e.delayed known).evalWith (qualifyWithin depth) w'.chain w'.heap = (r', heap')) :
    ∃ t', t.Widens t' ∧ t'.Heaps (Chain.Trails w'.chain) heap heap' ∧ r.Sim True True
      (fun x y => Chain.Trails w'.chain x y ∧ (s.slot a → y = x ∧ t'.Shows x)) r' := by
  have hc := hw.chains
  by_cases ha : s.slot a
  · have he' : e.Clear t := admits_widen hw.frames.widens (hclear ha)
    rw [Expr.delayed_eq_of_admits he'] at hr' hp
    have hg := e.grows_evalWith depth w.chain w.heap
    obtain ⟨hg', hsound, hx⟩ := hw.sound.evalPlain (Qualifier.keeps_qualifyWithin depth) hp hr'
    have halike := Lockstep.alike_evalWith (qualifies w.heap.size depth) hc.lockstep
      (admits_lockstep he') hw.heaps.lockstep
    rw [hr] at hg
    rw [hr, hr'] at halike
    obtain ⟨hcut, -⟩ | ⟨hheaps, hends⟩ := halike
    · exact hcut.elim
    have hext := hw.heaps.extend hc.refl hg hg' hheaps hsound.closed
    refine ⟨t.extend w.heap.size heap.size, hw.heaps.widens_extend hg, hext, ?_⟩
    cases hends with
    | pending | failed h => trivial
    | @resolved x y hxy =>
      obtain rfl : y = x := hxy.2.trans (congrFun Item.rename_id x)
      refine ⟨hc.refl y, fun _ => ⟨rfl, fun h hh => ⟨hxy.1.within h hh, ?_⟩, hxy.1.reads⟩⟩
      exact hext.trails.size ▸ hx y rfl h hh
  · have hstored : t.Stored (Chain.Trails w'.chain) (Chain.Trails w'.chain)
        (e.evalWith (qualifyWithin depth) w.chain)
        ((e.delayed known).evalWith (qualifyWithin depth) w'.chain) :=
      (beside_of_discreet hc (he.widen hw.frames.widens)).bind fun hv => stored_store hc.refl hv
    obtain ⟨hheaps, hsim⟩ := hstored hw.heaps
    rw [hr, hr'] at hheaps hsim
    exact ⟨t, .refl t, hheaps, hsim.mono id id fun x y hxy => ⟨hxy, fun hs => absurd hs ha⟩⟩

theorem Worlds.grow (hw : s.Worlds t n known w w') (ht : t.Widens t')
    (hh : t'.Heaps (Chain.Trails w'.chain) heap heap') (hg : w'.heap.Grows heap')
    (hs : heap'.Sound n) : s.Worlds t' n known { w with heap } { w' with heap := heap' } where
  outer := hw.outer
  outer' := hw.outer'
  frames := hw.frames.mono ht fun _ _ h => h
  heaps := hh
  known := hw.known
  sound := ⟨hs, hw.sound.chain.le hg.size⟩

theorem Worlds.freeze {x y : Item} (hw : s.Worlds t n known w w') (ht : t.Widens t')
    (hh : t'.Heaps (Chain.Trails w'.chain) heap heap') (hg : w'.heap.Grows heap')
    (hs : heap'.Sound n) (hy : y.Within (· < heap'.size)) (ho : w'.context.frame.isOpen a)
    (hxy : Chain.Trails w'.chain x y) (hshow : s.slot a → y = x ∧ t'.Shows x) :
    s.Worlds t' n known (w.freeze a x heap) (w'.freeze a y heap') := by
  obtain ⟨e, hu⟩ := Frame.isOpen_iff.mp ho
  have htrails : ∀ x z, Chain.Trails w'.chain x z →
      Chain.Trails (w'.freeze a y heap').chain x z := fun _ _ h =>
    h.mono fun hr => (World.ahead_freeze hu).slot hr
  have hframes := (hw.frames.mono ht fun _ _ h => h).freeze (a := a) hxy hshow
  refine ⟨hw.outer, hw.outer', hframes.mono (.refl t') htrails, hh.mono htrails, fun b => ?_,
    hw.sound.freeze hg hs hy⟩
  rw [hw.known, World.frame_freeze, Frame.expr?_freeze]

/-- The same slots are open. -/
theorem Worlds.isOpen (hw : s.Worlds t n known w w') (a : SlotAddr) :
    w'.context.frame.isOpen a = w.context.frame.isOpen a := by
  have hslot := hw.frames.slot? a
  rw [Frame.isOpen_eq, Frame.isOpen_eq]
  revert hslot
  cases w.context.frame.slot? a <;> cases w'.context.frame.slot? a <;> intro h <;> cases h
  case none.none.none => rfl
  case some.some.some u u' h =>
    have hitem := h.item
    simp only [Option.any_some, Slot.isOpen]
    revert hitem
    cases u.item <;> cases u'.item <;> intro hitem <;> cases hitem <;> rfl

variable (depth) (hs : ∀ {h}, s.handle h → h < n)
include hs

/-- Trying a slot of a discreet unit is abreast of trying the delayed one. -/
theorem abreast_trySlot (he : e.Discreet s n) (hclear : s.slot a → e.Clear s) :
    World.Abreast False (fun _ _ => True) (s.Runs n known)
      (World.trySlot (qualifyWithin depth) a e)
      (World.trySlot (qualifyWithin depth) a (e.delayed known)) := by
  rintro w w' ⟨t, hw⟩
  have hopen := hw.isOpen a
  unfold World.trySlot
  rw [hopen]
  split
  · rename_i ho
    match hr : e.evalWith (qualifyWithin depth) w.chain w.heap,
      hr' : (e.delayed known).evalWith (qualifyWithin depth) w'.chain w'.heap with
    | (r, heap), (r', heap') =>
      have hp : (e.delayed known).Plain n := he.plain_delayed hs
      obtain ⟨t', ht', hheaps, hsim⟩ := hw.eval he hclear hp hr hr'
      obtain ⟨hg', hsound, hx⟩ := hw.sound.evalPlain (Qualifier.keeps_qualifyWithin depth) hp hr'
      have hgrow := hw.grow ht' hheaps hg' hsound
      refine Or.inr ?_
      obtain ⟨x, y, rfl, rfl, hxy, hshow⟩ | ⟨rfl, rfl⟩ | ⟨f, f', rfl, rfl⟩ := hsim.cases
      · refine Or.inl ⟨_, _, _, rfl, rfl, t', ?_⟩
        exact hw.freeze ht' hheaps hg' hsound (hx y rfl) (hopen.trans ho) hxy hshow
      · exact Or.inl ⟨_, _, _, rfl, rfl, t', hgrow⟩
      · exact Or.inr ⟨_, _, _, _, rfl, rfl, ⟨t', hgrow⟩, trivial⟩
  · exact Or.inr (Or.inl ⟨_, _, _, rfl, rfl, t, hw⟩)

/-- So is resolving all of them. -/
theorem abreast_resolve :
    World.Abreast False (fun _ _ => True) (s.Runs n known) (World.resolveWith (qualifyWithin depth))
      (World.resolveWith (qualifyWithin depth)) := by
  refine World.abreast_resolveWith (World.abreast_sweepWith fun {w w'} hw => ?_) fun _ => trivial
  obtain ⟨t, hw⟩ := hw
  refine hw.frames.groups.imp fun g g' hg => ⟨hg.id, hg.size, fun {i u u'} hu hu' => ?_⟩
  have hslot := hg.slot hu hu'
  rw [hslot.expr]
  exact abreast_trySlot depth hs hslot.discreet hslot.clear

end Worlds

end Sight

end Comptime
