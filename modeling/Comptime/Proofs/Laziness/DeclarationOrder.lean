import Comptime.Proofs.Laziness.Delaying
import Comptime.Proofs.Renumbering.DeclarationOrder
import Mathlib

/-! The order of declarations in units with lazy reads. If a unit only stores what it reads lazily,
it compiles to the same modules as the unit with its lazy reads delayed, whatever ids its groups
have. -/
namespace Comptime

open List (Forall₂)

variable {s t : Sight} {d : Draft} {ρ : Renumbering} {R : Item → Item → Prop} {n : Nat}
  {known : SlotAddr → Bool} {f f' : Frame} {w w' : World}

section Start

theorem Draft.vars_frame (d : Draft) : d.frame.vars = d.vars.reverse := by
  have hdeclare : ∀ (vars : List (VarId × Binding)) (f : Frame),
      (vars.foldl (fun f b => f.declare b.1 b.2) f).vars = vars.reverse ++ f.vars := by
    intro vars
    induction vars with
    | nil => exact fun f => rfl
    | cons b vars ih =>
      intro f
      rw [List.foldl_cons, ih, List.reverse_cons, List.append_assoc]
      rfl
  rw [Draft.frame, hdeclare, Frame.vars_addGroups, List.append_nil]

namespace Sight

theorem groups_insert {g g' : GroupState} {gs gs' : List GroupState}
    (hgs : Forall₂ (s.Groups t R n known) gs gs') (hg : s.Groups t R n known g g') :
    Forall₂ (s.Groups t R n known) (Frame.insert g gs) (Frame.insert g' gs') := by
  induction hgs with
  | nil => exact .cons hg .nil
  | @cons k k' gs gs' hk hgs ih =>
    rw [Frame.insert, Frame.insert, hg.id, hk.id]
    split
    · exact .cons hg (.cons hk hgs)
    · split
      · exact .cons hg hgs
      · exact .cons hk ih

theorem groups_ofGroup {g : Group} (hg : ∀ {i e}, g.slots[i]? = some e →
    e.Discreet s n ∧ (s.slot ⟨g.id, i⟩ → e.Clear s)) :
    s.Groups t R n known (.ofGroup g) (.ofGroup (g.delayed known)) where
  id := rfl
  size := by simp [GroupState.ofGroup, GroupOf.delayed]
  slot {i u u'} hu hu' := by
    simp only [GroupState.ofGroup, GroupOf.delayed, List.getElem?_toArray, List.getElem?_map]
      at hu hu'
    obtain ⟨e, he, rfl⟩ := Option.map_eq_some_iff.mp hu
    rw [he] at hu'
    cases hu'
    exact ⟨rfl, (hg he).1, (hg he).2, .none, fun _ => ⟨rfl, by rintro x ⟨⟩⟩⟩

end Sight

namespace Draft.Discreet

theorem frames (hd : d.Discreet s) :
    s.Frames s R d.heap.size d.known d.frame d.delayed.frame where
  widens := .refl s
  groups := by
    have hgroups : ∀ (gs : List Group) (f f' : Frame), (∀ g ∈ gs, g ∈ d.groups) →
        Forall₂ (s.Groups s R d.heap.size d.known) f.groups f'.groups →
        Forall₂ (s.Groups s R d.heap.size d.known) (gs.foldl Frame.addGroup f).groups
          ((gs.map (GroupOf.delayed d.known)).foldl Frame.addGroup f').groups := by
      intro gs
      induction gs with
      | nil => exact fun _ _ _ hf => hf
      | cons g gs ih =>
        intro f f' hmem hf
        rw [List.forall_mem_cons] at hmem
        exact ih _ _ hmem.2 (Sight.groups_insert hf (Sight.groups_ofGroup (hd.slots hmem.1)))
    rw [groups_frame, groups_frame]
    exact hgroups d.groups {} {} (fun _ hg => hg) .nil
  vars := by rw [vars_frame, vars_frame]; rfl
  shows hv hs := (hd.vars (List.mem_reverse.mp (d.vars_frame ▸ hv))).2 hs
  bound hv hs := hd.bound (List.mem_reverse.mp (d.vars_frame ▸ hv)) hs

theorem heaps (hd : d.Discreet s) (hR : ∀ x, R x x) : s.Heaps R d.heap d.heap where
  trails := by
    refine ⟨rfl, fun {h o o'} ho ho' => ?_⟩
    cases ho.symm.trans ho'
    exact .refl hR o
  lt := hd.range
  same _ := rfl
  shows := hd.shows
  generics := hd.generics

/-- The units start out side by side. -/
theorem worlds (hd : d.Discreet s) :
    s.Worlds s d.heap.size d.known ⟨{ frame := d.frame }, d.heap⟩
      ⟨{ frame := d.delayed.frame }, d.heap⟩ where
  outer := rfl
  outer' := rfl
  frames := hd.frames
  heaps := hd.heaps fun _ => .refl
  known a := by rw [known, Frame.expr?, Option.isSome_map]
  sound := by
    have hp := hd.plain_delayed
    refine ⟨⟨Nat.le_refl _, hp.closed, hp.objects⟩, Nat.le_refl _, fun {f} hf => ?_⟩
    obtain rfl := List.mem_singleton.mp hf
    exact (hp.blank (ρ := ⟨id, Function.injective_id⟩)).sound

end Draft.Discreet

end Start

section End

theorem Sight.Chains.behind {chain chain' : Chain}
    (hc : s.Chains (Chain.Trails chain') known chain chain') : Chain.Behind chain chain' := by
  intro p
  cases p with
  | slot a => exact hc.slot a
  | var v =>
    refine (hc.var v).bind fun x y hxy => ?_
    cases hxy with
    | none => exact hc.refl _
    | some h => exact h

theorem Chain.readSlot_eq_resolved_iff {a : SlotAddr} {x : Item} :
    Chain.readSlot [f] a = .resolved x ↔ f.Frozen a x := by
  refine ⟨Chain.frozen_of_readSlot, ?_⟩
  rintro ⟨u, hs⟩
  exact Chain.readSlot_of_slot? hs

/-- The frames hold the same handles: where the delayed one has a placeholder, the handle is held by
the slot that the placeholder leads to. -/
theorem Sight.Frames.rootsMirror (hf : s.Frames t (Chain.Trails [f']) n known f f') :
    RootsMirror {} (fun _ => True) f.items f'.items := by
  refine ⟨fun _ _ => trivial, fun k => ?_⟩
  simp only [mem_refsOf, Frame.mem_items, ← Chain.readSlot_eq_resolved_iff]
  constructor
  · rintro ⟨a, hy⟩
    obtain ⟨x, y, hx, hy', hxy, -⟩ | ⟨-, hy'⟩ | ⟨-, e, -, hy'⟩ := hf.readSlot a <;>
      cases hy.symm.trans hy'
    obtain rfl | ⟨u, ⟨b, hb, -⟩, -⟩ := Relation.ReflTransGen.cases_head hxy
    · exact ⟨k, ⟨a, hx⟩, rfl⟩
    · cases hb
  · rintro ⟨k, ⟨a, hx⟩, rfl⟩
    obtain ⟨x, y, hx', hy, hxy, -⟩ | ⟨hx', -⟩ | ⟨-, e, hx', -⟩ := hf.readSlot a <;>
      cases hx.symm.trans hx'
    obtain heq | ⟨u, -, b, -, hb⟩ := Relation.ReflTransGen.cases_tail hxy
    · exact ⟨a, heq ▸ hy⟩
    · exact ⟨b, hb⟩

/-- Once all slots are frozen, a unit and the delayed one mean the same. -/
theorem Sight.Worlds.alike (hw : s.Worlds t n known w w') (d : Draft) :
    Draft.Alike {} (fun _ => True) d d.delayed w w' := by
  have hb := hw.chains.behind
  have hf := hw.frames
  have hchain' : w'.chain = [w'.context.frame] := by rw [World.chain, Context.chain, hw.outer']
  rw [hchain'] at hf
  refine ⟨hb.settling hw.heaps.trails, hf.rootsMirror, ?_, fun _ => rfl⟩
  have hprogram : d.delayed.program = d.program := rfl
  refine (hb.agrees_settledProgram hprogram).mono ?_
  rintro _ p rfl
  exact ⟨fun _ _ _ _ => trivial, (Stmt.renameAll_id p).symm⟩

theorem Draft.Discreet.endAlike (hd : d.Discreet s) :
    d.EndAlike d.delayed (World.resolve ⟨{ frame := d.frame }, d.heap⟩)
      (World.resolve ⟨{ frame := d.delayed.frame }, d.delayed.heap⟩) := by
  obtain ⟨hcut, -⟩ | ⟨k, w, w', hw, hw', t, hworlds⟩ | ⟨e, e', w, w', hw, hw', -⟩ :=
    Sight.abreast_resolve depthLimit hd.range ⟨s, hd.worlds⟩
  · exact hcut.elim
  · have hresolve : World.resolve ⟨{ frame := d.frame }, d.heap⟩ = _ := hw
    have hresolve' : World.resolve ⟨{ frame := d.delayed.frame }, d.delayed.heap⟩ = _ := hw'
    rw [hresolve, hresolve']
    exact ⟨{}, fun _ => True, hworlds.alike d⟩
  · have hresolve : World.resolve ⟨{ frame := d.frame }, d.heap⟩ = _ := hw
    have hresolve' : World.resolve ⟨{ frame := d.delayed.frame }, d.delayed.heap⟩ = _ := hw'
    rw [hresolve, hresolve']
    trivial

end End

section Renumbering

theorem Object.generics_rename (r : Renaming) (o : Object) :
    (o.rename r).generics = o.generics.map r.generic := by
  cases o with
  | type t =>
    simp only [Object.rename, Object.generics, TypeValue.generics, TypeValue.generic?_rename,
      List.map_append, Option.toList_map]
    simp [TypeValue.rename, Application.rename, Function.comp_def]
  | _ => rfl

namespace Draft

theorem known_renumber (a : SlotAddr) : (d.renumber ρ).known (ρ.slot a) = d.known a := by
  have hgroups : ∀ (gs : List Group) {f f' : Frame}, d.link.Frames ρ True True f f' →
      d.link.Frames ρ True True (gs.foldl Frame.addGroup f)
        ((gs.map (GroupOf.renumber ρ)).foldl Frame.addGroup f') := by
    intro gs
    induction gs with
    | nil => exact fun hf => hf
    | cons g gs ih => exact fun hf => ih (hf.addGroup g)
  have hslot := (hgroups d.groups (Link.blank_empty (n := 0)).frames).slot a
  have hframe : ∀ (d : Draft) (b : SlotAddr),
      d.frame.slot? b = (d.groups.foldl Frame.addGroup {}).slot? b := by
    intro d b
    simp only [Frame.slot?, Frame.group?, groups_frame]
  unfold known
  rw [hframe, hframe]
  change ((d.groups.map (GroupOf.renumber ρ)).foldl Frame.addGroup {} |>.slot? _).isSome = _
  revert hslot
  cases (d.groups.foldl Frame.addGroup {}).slot? a <;>
    cases ((d.groups.map (GroupOf.renumber ρ)).foldl Frame.addGroup {}).slot? (ρ.slot a) <;>
    intro h
  case none.none | some.some => rfl
  case none.some | some.none => exact h.elim

/-- Delaying lazy reads and renumbering can be exchanged. -/
theorem delayed_renumber (d : Draft) (ρ : Renumbering) :
    (d.renumber ρ).delayed = d.delayed.renumber ρ := by
  have hgroup : ∀ g : Group, (g.renumber ρ).delayed (d.renumber ρ).known =
      (g.delayed d.known).renumber ρ := by
    rintro ⟨id, label, slots⟩
    simp only [GroupOf.delayed, GroupOf.renumber, Expr.renumberAll_eq, List.map_map]
    refine congrArg (GroupOf.mk _ _) (List.map_congr_left fun e _ => ?_)
    exact Expr.delayed_renumber known_renumber e
  simp only [delayed, renumber, List.map_map]
  congr 1
  exact List.map_congr_left fun g _ => hgroup g

theorem get?_renumber {h : Handle} {o : Object} (ho : (d.renumber ρ).heap.get? h = some o) :
    ∃ p, d.heap.get? h = some p ∧ p.rename (ρ.renaming id) = o := by
  have hget : (d.renumber ρ).heap.get? h = (d.heap.get? h).map (Object.rename (ρ.renaming id)) := by
    simp [renumber, Heap.get?]
  exact Option.map_eq_some_iff.mp (hget ▸ ho)

theorem Discreet.renumber (hd : d.Discreet s) (ρ : Renumbering) :
    (d.renumber ρ).Discreet (s.renumber ρ) := by
  have hsound := (hd.plain_delayed.heaps (ρ := ρ)).sound'
  have hsize : (d.renumber ρ).heap.size = d.heap.size := size_renumber
  refine ⟨hsound.closed, ?_, ?_, fun {h o} hs ho x hx => ?_, fun {h o} hs ho site hsite => ?_,
    fun {g i e} hg he => ?_, fun {v x} hv => ?_, fun {v a} hv hs => ?_, fun {x} hx => ?_⟩ <;>
    try rw [hsize]
  · exact hsound.plain
  · exact hd.range
  · obtain ⟨p, hp, rfl⟩ := get?_renumber ho
    rw [Object.held, Object.children_rename, List.map_map] at hx
    obtain ⟨c, hc, rfl⟩ := List.mem_map.mp hx
    have hitem : (Child.rename (ρ.renaming id) c).2 = c.2.rename ρ.items :=
      Item.rename_congr (fun _ _ => rfl) rfl
    rw [Function.comp_apply, hitem]
    exact (hd.shows hs hp c.2 (List.mem_map_of_mem hc)).renumber
  · obtain ⟨p, hp, rfl⟩ := get?_renumber ho
    rw [Object.generics_rename] at hsite
    obtain ⟨site, hmem, rfl⟩ := List.mem_map.mp hsite
    have hadmits := Sight.admits_renumber (ρ := ρ) (hd.generics hs hp site hmem)
    rwa [← GenericOf.parts_renumber] at hadmits
  · obtain ⟨g, hmem, rfl⟩ := List.mem_map.mp hg
    rw [GroupOf.renumber_slots, List.getElem?_map] at he
    obtain ⟨e, hi, rfl⟩ := Option.map_eq_some_iff.mp he
    obtain ⟨hdiscreet, hclear⟩ := hd.slots hmem hi
    refine ⟨hdiscreet.renumber, ?_⟩
    rintro ⟨a, ha, heq⟩
    rw [GroupOf.renumber_group] at heq
    obtain rfl : a = ⟨g.id, i⟩ := ρ.slot_inj heq
    exact (hclear ha).renumber
  · obtain ⟨⟨u, b⟩, hb, heq⟩ := List.mem_map.mp hv
    cases b <;> cases heq
    obtain ⟨hwithin, hshows⟩ := hd.vars hb
    exact ⟨Item.within_rename hwithin, fun hs => (hshows hs).renumber⟩
  · obtain ⟨⟨u, b⟩, hb, heq⟩ := List.mem_map.mp hv
    cases b <;> cases heq
    exact ⟨_, hd.bound hb hs, rfl⟩
  · have hx' : x ∈ Stmt.itemsAll (Stmt.renameAll ρ.items d.program) := hx
    rw [Stmt.itemsAll_rename] at hx'
    obtain ⟨y, hy, rfl⟩ := List.mem_map.mp hx'
    exact Item.within_rename (hd.program hy)

end Draft

end Renumbering

section Example

/-- Two records that hold each other, and a test beside them. -/
def circleUnit : Draft where
  name := "circle"
  groups := [⟨0, "front", [.record [] [("next", .lazySlot ⟨1, 0⟩)]]⟩,
    ⟨1, "back", [.record [] [("next", .lazySlot ⟨0, 0⟩),
      ("flag", .contains (.type .bool) (.slot ⟨2, 0⟩))]]⟩,
    ⟨2, "flag", [.lit (.bool true)]⟩]
  program := [.exportConst "x" (.comptime ⟨0, 0⟩)]

/-- The test sees only the slot that it reads. -/
def circleSight : Sight where
  slot a := a = ⟨2, 0⟩
  var _ := False
  handle _ := False

def circleModules : Modules where
  primary := "import * as __items from \"./items.js\";\nexport const x = __items.item0;"
  companion := "export const item1 = \x7b next: undefined, flag: true \x7d;\n" ++
    "export const item0 = \x7b next: item1 \x7d;\nitem1.next = item0;"
  primaryFile := "main.js"
  companionFile := "items.js"
  patches := 1
  tracked := 2

def circleHeap : Heap :=
  ⟨#[.record [] [("next", .ref 1)], .record [] [("next", .ref 0), ("flag", .bool true)]]⟩

/-- After the first sweep the record at the back is left open. -/
def circleSwept : World where
  context.frame.groups := [
    ⟨0, "front", #[⟨.record [] [("next", .lazySlot ⟨1, 0⟩)], some (.ref 0)⟩]⟩,
    ⟨1, "back", #[⟨.record [] [("next", .lazySlot ⟨0, 0⟩),
      ("flag", .contains (.type .bool) (.slot ⟨2, 0⟩))], none⟩]⟩,
    ⟨2, "flag", #[⟨.lit (.bool true), some (.bool true)⟩]⟩]
  heap := ⟨#[.record [] [("next", .hole (.slot ⟨1, 0⟩))]]⟩

theorem resolve_circleUnit (q : Qualifier) :
    World.resolveWith q ⟨{ frame := circleUnit.frame }, circleUnit.heap⟩ = (.ok 2,
      ⟨{ frame := { groups := [
          ⟨0, "front", #[⟨.record [] [("next", .lazySlot ⟨1, 0⟩)], some (.ref 0)⟩]⟩,
          ⟨1, "back", #[⟨.record [] [("next", .lazySlot ⟨0, 0⟩),
            ("flag", .contains (.type .bool) (.slot ⟨2, 0⟩))], some (.ref 1)⟩]⟩,
          ⟨2, "flag", #[⟨.lit (.bool true), some (.bool true)⟩]⟩] } },
        ⟨#[.record [] [("next", .hole (.slot ⟨1, 0⟩))],
          .record [] [("next", .ref 0), ("flag", .bool true)]]⟩⟩) := by
  have hsweep : World.sweepWith q ⟨{ frame := circleUnit.frame }, circleUnit.heap⟩ =
      (.ok ⟨2, [1]⟩, circleSwept) := by cbv
  rw [World.resolveWith, Job.bind_apply, World.stallWith, World.sweepFrom_of_ok hsweep]
  cbv

theorem discreet_circleUnit : circleUnit.Discreet circleSight := by
  have htest : Expr.Clear circleSight (.contains (.type .bool) (.slot ⟨2, 0⟩)) := by
    rintro p hp
    simp only [Expr.parts, TypeExpr.parts, List.cons_append, List.nil_append, List.mem_cons,
      List.not_mem_nil, or_false] at hp
    rcases hp with rfl | rfl | rfl
    · trivial
    · trivial
    · exact rfl
  have hflag : Expr.Clear circleSight (.lit (.bool true)) := by
    rintro p hp
    cases List.mem_singleton.mp hp
    exact ⟨by rintro _ ⟨⟩, by rintro _ ⟨⟩⟩
  refine ⟨by decide, fun h => ?_, False.elim, False.elim, False.elim, fun {g i e} hg he => ?_,
    fun h => ?_, fun h => ?_, fun h => ?_⟩
  · cases h
  · simp only [circleUnit, List.mem_cons, List.not_mem_nil, or_false] at hg
    obtain rfl : i = 0 := by
      have hlt := (List.getElem?_eq_some_iff.mp he).1
      rcases hg with rfl | rfl | rfl <;> simpa using hlt
    rcases hg with rfl | rfl | rfl <;> cases he
    · refine ⟨.record (List.forall_mem_nil _) ?_ (by decide), fun h => by cases h⟩
      exact List.forall_mem_singleton.mpr (.lazySlot _)
    · refine ⟨.record (List.forall_mem_nil _) ?_ (by decide), fun h => by cases h⟩
      exact List.forall_mem_cons.mpr ⟨.lazySlot _, List.forall_mem_singleton.mpr (.clear htest)⟩
    · exact ⟨.clear hflag, fun _ => hflag⟩
  all_goals cases h

/-- A list that holds itself by way of an alias, a record and the member access of a reader. -/
def chaseUnit : Draft where
  name := "chase"
  groups := [⟨0, "holder", [.record [] [("field", .lazySlot ⟨1, 0⟩)]]⟩,
    ⟨1, "alias", [.lazySlot ⟨2, 0⟩]⟩,
    ⟨2, "list", [.seq [.slot ⟨3, 0⟩]]⟩,
    ⟨3, "reader", [.seq [.member (.slot ⟨0, 0⟩) "field"]]⟩]
  program := [.exportConst "x" (.comptime ⟨2, 0⟩)]

def chaseModules : Modules where
  primary := "import * as __items from \"./items.js\";\nexport const x = __items.item0;"
  companion := "export const item0 = [[undefined]];\nitem0[0][0] = item0;"
  primaryFile := "main.js"
  companionFile := "items.js"
  patches := 1
  tracked := 1

/-- After the first sweep only the list is left: the field held a placeholder for the alias, which
was frozen when the reader came to it. -/
def chaseSwept : World where
  context.frame.groups := [
    ⟨0, "holder", #[⟨.record [] [("field", .lazySlot ⟨1, 0⟩)], some (.ref 0)⟩]⟩,
    ⟨1, "alias", #[⟨.lazySlot ⟨2, 0⟩, some (.hole (.slot ⟨2, 0⟩))⟩]⟩,
    ⟨2, "list", #[⟨.seq [.slot ⟨3, 0⟩], none⟩]⟩,
    ⟨3, "reader", #[⟨.seq [.member (.slot ⟨0, 0⟩) "field"], some (.ref 1)⟩]⟩]
  heap := ⟨#[.record [] [("field", .hole (.slot ⟨1, 0⟩))], .seq [.hole (.slot ⟨2, 0⟩)]]⟩

/-- With the ids exchanged the field holds the placeholder of the alias, which is one for the list,
and the reader waits for that. -/
def chaseStuck : World where
  context.frame.groups := [
    ⟨0, "alias", #[⟨.lazySlot ⟨2, 0⟩, some (.hole (.slot ⟨2, 0⟩))⟩]⟩,
    ⟨1, "holder", #[⟨.record [] [("field", .lazySlot ⟨0, 0⟩)], some (.ref 0)⟩]⟩,
    ⟨2, "list", #[⟨.seq [.slot ⟨3, 0⟩], none⟩]⟩,
    ⟨3, "reader", #[⟨.seq [.member (.slot ⟨1, 0⟩) "field"], none⟩]⟩]
  heap := ⟨#[.record [] [("field", .hole (.slot ⟨2, 0⟩))]]⟩

theorem resolve_chaseUnit (q : Qualifier) :
    World.resolveWith q ⟨{ frame := chaseUnit.frame }, chaseUnit.heap⟩ = (.ok 2,
      ⟨{ frame := { groups := [
          ⟨0, "holder", #[⟨.record [] [("field", .lazySlot ⟨1, 0⟩)], some (.ref 0)⟩]⟩,
          ⟨1, "alias", #[⟨.lazySlot ⟨2, 0⟩, some (.hole (.slot ⟨2, 0⟩))⟩]⟩,
          ⟨2, "list", #[⟨.seq [.slot ⟨3, 0⟩], some (.ref 2)⟩]⟩,
          ⟨3, "reader", #[⟨.seq [.member (.slot ⟨0, 0⟩) "field"], some (.ref 1)⟩]⟩] } },
        ⟨#[.record [] [("field", .hole (.slot ⟨1, 0⟩))], .seq [.hole (.slot ⟨2, 0⟩)],
          .seq [.ref 1]]⟩⟩) := by
  have hsweep : World.sweepWith q ⟨{ frame := chaseUnit.frame }, chaseUnit.heap⟩ =
      (.ok ⟨3, [2]⟩, chaseSwept) := by cbv
  rw [World.resolveWith, Job.bind_apply, World.stallWith, World.sweepFrom_of_ok hsweep]
  cbv

theorem resolve_chaseUnit_swapped (q : Qualifier) :
    (World.resolveWith q ⟨{ frame := (chaseUnit.renumber (.swap 0 1)).frame },
      (chaseUnit.renumber (.swap 0 1)).heap⟩).1 = .error (.stuck "list[0]") := by
  have hsweep : World.sweepWith q ⟨{ frame := (chaseUnit.renumber (.swap 0 1)).frame },
      (chaseUnit.renumber (.swap 0 1)).heap⟩ = (.ok ⟨2, [2, 3]⟩, chaseStuck) := by cbv
  rw [World.resolveWith, Job.bind_apply, World.stallWith, World.sweepFrom_of_ok hsweep]
  cbv

/-- A member access shows the ids, too: it waits for the placeholder that it finds, and that can be
one for the alias or one for the list.

This is why an access asks that the whole record is in sight, although a field beside the lazy one
would show nothing. What is in sight is told from the slots and variables that expressions name,
before any of them has an item. Which record an access meets and what is in its field is not known
by then: the record may come through other slots, variables and accesses, and the first of two
fields with the name is read. -/
theorem compile_renumber_chaseUnit :
    compile chaseUnit {} = .ok chaseModules ∧
      ∀ m, compile (chaseUnit.renumber (.swap 0 1)) {} ≠ .ok m := by
  constructor
  · exact compile_of_stages (k := 2) (p := [.exportConst "x" (.lit (.ref 2))])
      (u := ⟨"chase", ⟨#[.record [] [("field", .ref 2)], .seq [.ref 2], .seq [.ref 1]]⟩,
        [.exportConst "x" (.lit (.ref 2))]⟩)
      (resolve_chaseUnit _) (by cbv) (by cbv) (by cbv)
  · intro m hm
    obtain ⟨u, notes, hu, -⟩ := compile_eq_ok_iff.mp hm
    have hstuck := resolve_chaseUnit_swapped (qualifyWithin depthLimit)
    rw [Draft.resolve_of_error (Prod.ext hstuck rfl)] at hu
    cases hu

end Example

end Comptime
