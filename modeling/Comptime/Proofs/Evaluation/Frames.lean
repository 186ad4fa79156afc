import Comptime.Compile
import Comptime.Proofs.Edges
import Mathlib.Data.List.Nodup

/-! Frames by their slots: what freezing a slot, registering a group and binding parameters do to
them. -/
namespace Comptime

namespace Frame

variable {f : Frame} {a b : SlotAddr} {x : Item}

def slot? (f : Frame) (a : SlotAddr) : Option Slot :=
  (f.group? a.group).bind fun g => g.slots[a.slot]?

/-- The expression of a slot, which never changes. -/
def expr? (f : Frame) (a : SlotAddr) : Option Expr := (f.slot? a).map Slot.expr

theorem isOpen_eq : f.isOpen a = (f.slot? a).any Slot.isOpen := by
  unfold isOpen slot?
  cases f.group? a.group <;> rfl

theorem isOpen_iff : f.isOpen a ↔ ∃ e, f.slot? a = some ⟨e, none⟩ := by
  rw [isOpen_eq, Option.any_eq_true]
  constructor
  · rintro ⟨⟨e, item⟩, hs, ho⟩
    cases item with
    | none => exact ⟨e, hs⟩
    | some x => cases ho
  · rintro ⟨e, hs⟩
    exact ⟨_, hs, rfl⟩

theorem group?_freeze (id : GroupId) :
    (f.freeze a x).group? id =
      if id = a.group then (f.group? id).map fun g =>
        { g with slots := g.slots.modify a.slot fun s => { s with item := some x } }
      else f.group? id := by
  simp only [freeze, group?]
  induction f.groups with
  | nil => simp [freezeIn]
  | cons g gs ih =>
    simp only [freezeIn]
    by_cases hg : g.id = a.group
    · by_cases hid : id = a.group
      · simp [hg, hid]
      · simp [hg, hid, Ne.symm hid]
    · by_cases hid : g.id = id
      · have hne : id ≠ a.group := fun he => hg (hid.trans he)
        simp [hid, hne]
      · simp [hg, hid, ih]

theorem slot?_freeze :
    (f.freeze a x).slot? b =
      if b = a then (f.slot? a).map fun s => { s with item := some x } else f.slot? b := by
  obtain ⟨g, i⟩ := b
  obtain ⟨k, j⟩ := a
  simp only [slot?, group?_freeze, SlotAddr.mk.injEq]
  by_cases hg : g = k
  · subst hg
    cases f.group? g with
    | none => simp
    | some s =>
      simp only [↓reduceIte, Option.map_some, Option.bind_some, Array.getElem?_modify, true_and]
      by_cases hi : i = j
      · simp [hi]
      · simp [hi, Ne.symm hi]
  · simp [hg]

theorem expr?_freeze : (f.freeze a x).expr? b = f.expr? b := by
  simp only [expr?, slot?_freeze]
  split
  · rename_i hb
    rw [hb, Option.map_map]
    rfl
  · rfl

/-- Every group is the one found under its id. -/
theorem group?_of_mem {g : GroupState} (hg : g ∈ f.groups) : f.group? g.id = some g := by
  have hf := f.ascending
  unfold Frame.group?
  generalize f.groups = groups at hf hg ⊢
  induction groups with
  | nil => cases hg
  | cons k gs ih =>
    obtain ⟨hk, hgs⟩ := List.pairwise_cons.mp hf
    rcases List.mem_cons.mp hg with rfl | hg
    · simp
    · have hne : k.id ≠ g.id := Nat.ne_of_lt (hk g hg)
      rw [List.find?_cons_of_neg (by simpa using hne)]
      exact ih hgs hg

/-- The addresses of the slots of some groups, in order. -/
def addresses (groups : List GroupState) : List SlotAddr :=
  groups.flatMap fun g => g.slots.toList.zipIdx.map fun p => ⟨g.id, p.2⟩

theorem mem_addresses {s : Slot} (hs : f.slot? a = some s) : a ∈ addresses f.groups := by
  obtain ⟨g, hg, hi⟩ := Option.bind_eq_some_iff.mp hs
  have hid : g.id = a.group := by simpa using List.find?_some hg
  refine List.mem_flatMap.mpr ⟨g, List.mem_of_find?_eq_some hg, ?_⟩
  refine List.mem_map.mpr ⟨(s, a.slot), ?_, ?_⟩
  · rw [List.mem_zipIdx_iff_getElem?]
    simpa using hi
  · rw [hid]

theorem mem_freezeIn {groups : List GroupState} {g : GroupState} {s : Slot}
    (hg : g ∈ freezeIn a x groups) (hs : s ∈ g.slots) :
    ∃ g' ∈ groups, ∃ s' ∈ g'.slots, s.expr = s'.expr ∧ (s.item = s'.item ∨ s.item = some x) := by
  induction groups with
  | nil => cases hg
  | cons k groups ih =>
    simp only [freezeIn] at hg
    split at hg
    · rcases List.mem_cons.mp hg with rfl | hg
      · obtain ⟨i, hi, rfl⟩ := Array.mem_iff_getElem.mp hs
        simp only [Array.size_modify] at hi
        refine ⟨k, List.mem_cons_self, k.slots[i], Array.getElem_mem hi, ?_⟩
        rw [Array.getElem_modify]
        split <;> simp
      · exact ⟨g, List.mem_cons_of_mem k hg, s, hs, rfl, Or.inl rfl⟩
    · rcases List.mem_cons.mp hg with rfl | hg
      · exact ⟨g, List.mem_cons_self, s, hs, rfl, Or.inl rfl⟩
      · obtain ⟨g', hg', hs'⟩ := ih hg
        exact ⟨g', List.mem_cons_of_mem k hg', hs'⟩

/-- The slot is frozen with this item. -/
def Frozen (f : Frame) (a : SlotAddr) (x : Item) : Prop := ∃ e, f.slot? a = some ⟨e, some x⟩

theorem group?_addGroup (g : Group) (id : GroupId) :
    (f.addGroup g).group? id = if g.id = id then some (.ofGroup g) else f.group? id := by
  have hid : (GroupState.ofGroup g).id = g.id := rfl
  simp only [addGroup, Frame.group?]
  induction f.groups with
  | nil =>
    by_cases h : g.id = id <;> simp [insert, hid, h]
  | cons k groups ih =>
    rw [insert, hid]
    by_cases hlt : g.id < k.id
    · rw [if_pos hlt]
      by_cases h : g.id = id <;> simp [hid, h]
    · rw [if_neg hlt]
      by_cases heq : g.id = k.id
      · rw [if_pos heq]
        by_cases h : g.id = id
        · simp [hid, h]
        · have hk : k.id ≠ id := heq ▸ h
          simp [hid, h, hk]
      · rw [if_neg heq]
        by_cases hk : k.id = id
        · have h : g.id ≠ id := fun he => heq (he.trans hk.symm)
          simp [hk, h]
        · simp [hk, ih]

theorem slot?_addGroup (g : Group) (a : SlotAddr) :
    (f.addGroup g).slot? a =
      if g.id = a.group then (g.slots[a.slot]?).map fun e => { expr := e } else f.slot? a := by
  simp only [slot?, group?_addGroup]
  split
  · simp [GroupState.ofGroup]
  · rfl

theorem frozen_addGroup {g : Group}
    (hx : (f.addGroup g).Frozen a x) : f.Frozen a x := by
  obtain ⟨e, hs⟩ := hx
  rw [slot?_addGroup] at hs
  split at hs
  · obtain ⟨e', -, he⟩ := Option.map_eq_some_iff.mp hs
    cases he
  · exact ⟨e, hs⟩

theorem groups_bindParams {site : Generic} {args : List Item} {f' : Frame}
    (h : f.bindParams site args = .ok f') : f'.groups = f.groups := by
  have hfold : ∀ (ps : List (VarId × Item)) (f : Frame),
      (ps.foldl (fun f p => f.declare p.1 (.item p.2)) f).groups = f.groups := by
    intro ps
    induction ps with
    | nil => exact fun f => rfl
    | cons p ps ih => exact fun f => ih (f.declare p.1 (.item p.2))
  unfold Frame.bindParams at h
  split at h
  · cases h
    exact hfold (site.params.zip args) f
  · cases h

/-- Parameters are bound to items, and never to slots. -/
theorem not_slot_bindParams {site : Generic} {args : List Item} {f' : Frame} {v : VarId}
    (hf : (v, Binding.slot a) ∉ f.vars) (h : f.bindParams site args = .ok f') :
    (v, Binding.slot a) ∉ f'.vars := by
  have hfold : ∀ (ps : List (VarId × Item)) (f : Frame), (v, Binding.slot a) ∉ f.vars →
      (v, Binding.slot a) ∉ (ps.foldl (fun f p => f.declare p.1 (.item p.2)) f).vars := by
    intro ps
    induction ps with
    | nil => exact fun _ hf => hf
    | cons p ps ih =>
      intro f hf
      refine ih _ fun hv => ?_
      rcases List.mem_cons.mp hv with he | hv
      · cases he
      · exact hf hv
  unfold Frame.bindParams at h
  split at h
  · cases h
    exact hfold (site.params.zip args) f hf
  · cases h

theorem vars_addGroups (gs : List Group) : (gs.foldl Frame.addGroup f).vars = f.vars := by
  induction gs generalizing f with
  | nil => rfl
  | cons g gs ih => exact ih (f := f.addGroup g)

theorem not_slot_enterAll {bs : List (Generic × List Item)} {f' : Frame} {v : VarId}
    (hf : (v, Binding.slot a) ∉ f.vars)
    (h : bs.foldlM (fun f b => f.enter b.1 b.2) f = .ok f') : (v, Binding.slot a) ∉ f'.vars := by
  induction bs generalizing f with
  | nil =>
    cases h
    exact hf
  | cons b bs ih =>
    rw [List.foldlM_cons] at h
    obtain ⟨f₁, h₁, h⟩ := bind_eq_ok.mp h
    refine ih (not_slot_bindParams ?_ h₁) h
    rwa [vars_addGroups]

/-- The expressions of the frame, and the items that can be read in it, are as they should be. -/
structure All (E : Expr → Prop) (P : Item → Prop) (f : Frame) : Prop where
  expr : ∀ {g s}, g ∈ f.groups → s ∈ g.slots → E s.expr
  item : ∀ {g s x}, g ∈ f.groups → s ∈ g.slots → s.item = some x → P x
  var : ∀ {v x}, (v, Binding.item x) ∈ f.vars → P x

section All

variable {E : Expr → Prop} {P : Item → Prop} {f' : Frame}

theorem all_empty : ({} : Frame).All E P where
  expr hg := nomatch hg
  item hg := nomatch hg
  var hv := nomatch hv

theorem All.mono {F : Expr → Prop} {Q : Item → Prop} (hf : f.All E P) (hE : ∀ e, E e → F e)
    (hP : ∀ x, P x → Q x) : f.All F Q where
  expr hg hs := hE _ (hf.expr hg hs)
  item hg hs hx := hP _ (hf.item hg hs hx)
  var hv := hP _ (hf.var hv)

theorem All.slot? (hf : f.All E P) {s : Slot} (hs : f.slot? a = some s) :
    E s.expr ∧ ∀ x, s.item = some x → P x := by
  obtain ⟨g, hg, hi⟩ := Option.bind_eq_some_iff.mp hs
  have hmem := List.mem_of_find?_eq_some hg
  exact ⟨hf.expr hmem (Array.mem_of_getElem? hi),
    fun x hx => hf.item hmem (Array.mem_of_getElem? hi) hx⟩

theorem All.freeze (hf : f.All E P) (hx : P x) : (f.freeze a x).All E P where
  expr hg hs := by
    obtain ⟨g', hg', s', hs', he, -⟩ := mem_freezeIn hg hs
    exact he ▸ hf.expr hg' hs'
  item hg hs hy := by
    obtain ⟨g', hg', s', hs', -, hi | hi⟩ := mem_freezeIn hg hs
    · exact hf.item hg' hs' (hi ▸ hy)
    · cases hi.symm.trans hy
      exact hx
  var := hf.var

theorem All.addGroup (hf : f.All E P) {g : Group} (hg : ∀ e ∈ g.slots, E e) :
    (f.addGroup g).All E P := by
  have hnew : ∀ {s}, s ∈ (GroupState.ofGroup g).slots → E s.expr ∧ s.item = none := by
    intro s hs
    simp only [GroupState.ofGroup, List.mem_toArray, List.mem_map] at hs
    obtain ⟨e, he, rfl⟩ := hs
    exact ⟨hg e he, rfl⟩
  refine ⟨fun hk hs => ?_, fun hk hs hx => ?_, hf.var⟩
  · rcases mem_insert hk with rfl | hk
    · exact (hnew hs).1
    · exact hf.expr hk hs
  · rcases mem_insert hk with rfl | hk
    · cases (hnew hs).2.symm.trans hx
    · exact hf.item hk hs hx

theorem All.addGroups {gs : List Group} (hf : f.All E P) (hg : ∀ g ∈ gs, ∀ e ∈ g.slots, E e) :
    (gs.foldl Frame.addGroup f).All E P := by
  induction gs generalizing f with
  | nil => exact hf
  | cons g gs ih =>
    rw [List.forall_mem_cons] at hg
    exact ih (hf.addGroup hg.1) hg.2

theorem All.declare (hf : f.All E P) (v : VarId) {b : Binding} (hb : ∀ x, b = .item x → P x) :
    (f.declare v b).All E P := by
  refine ⟨hf.expr, hf.item, fun {w x} hv => ?_⟩
  rcases List.mem_cons.mp hv with he | hv
  · cases he
    exact hb x rfl
  · exact hf.var hv

theorem All.bindParams (hf : f.All E P) {site : Generic} {args : List Item}
    (ha : ∀ x ∈ args, P x) (h : f.bindParams site args = .ok f') : f'.All E P := by
  have hbind : ∀ (ps : List (VarId × Item)) (f : Frame), f.All E P → (∀ p ∈ ps, P p.2) →
      (ps.foldl (fun f p => f.declare p.1 (.item p.2)) f).All E P := by
    intro ps
    induction ps with
    | nil => exact fun f hf _ => hf
    | cons p ps ih =>
      intro f hf hp
      refine ih _ (hf.declare p.1 ?_) fun p' hp' => hp p' (List.mem_cons_of_mem p hp')
      rintro x ⟨⟩
      exact hp p List.mem_cons_self
  unfold Frame.bindParams at h
  split at h
  · cases h
    have hd := hbind (site.params.zip args) f hf fun p hp => ha _ (List.of_mem_zip hp).2
    exact ⟨hd.expr, hd.item, hd.var⟩
  · cases h

theorem All.enter (hf : f.All E P) {site : Generic} {args : List Item}
    (hs : ∀ g ∈ site.groups, ∀ e ∈ g.slots, E e) (ha : ∀ x ∈ args, P x)
    (h : f.enter site args = .ok f') : f'.All E P :=
  (hf.addGroups hs).bindParams ha h

theorem All.enterAll {bs : List (Generic × List Item)} (hf : f.All E P)
    (hb : ∀ b ∈ bs, (∀ g ∈ b.1.groups, ∀ e ∈ g.slots, E e) ∧ ∀ x ∈ b.2, P x)
    (h : bs.foldlM (fun f b => f.enter b.1 b.2) f = .ok f') : f'.All E P := by
  induction bs generalizing f with
  | nil =>
    cases h
    exact hf
  | cons b bs ih =>
    rw [List.foldlM_cons] at h
    obtain ⟨f₁, h₁, h⟩ := bind_eq_ok.mp h
    rw [List.forall_mem_cons] at hb
    exact ih (hf.enter hb.1.1 hb.1.2 h₁) hb.2 h

end All

theorem mem_items : x ∈ f.items ↔ ∃ a, f.Frozen a x := by
  simp only [Frame.items, GroupState.items, List.mem_flatMap, List.mem_filterMap]
  constructor
  · rintro ⟨g, hg, ⟨e, _⟩, hs, rfl⟩
    obtain ⟨i, hi⟩ := List.mem_iff_getElem?.mp hs
    refine ⟨⟨g.id, i⟩, e, ?_⟩
    rw [Frame.slot?, group?_of_mem hg, Option.bind_some]
    simpa using hi
  · rintro ⟨a, e, hs⟩
    obtain ⟨g, hg, hi⟩ := Option.bind_eq_some_iff.mp hs
    exact ⟨g, List.mem_of_find?_eq_some hg, _, (Array.mem_of_getElem? hi).val, rfl⟩

theorem isSome_group?_freeze (id : GroupId) :
    ((f.freeze a x).group? id).isSome = (f.group? id).isSome := by
  rw [group?_freeze]
  split <;> simp

end Frame

theorem Chain.readSlot_cons {f : Frame} {chain : Chain} (a : SlotAddr) :
    Chain.readSlot (f :: chain) a =
      if (f.group? a.group).isSome then
        match f.slot? a with
        | some ⟨_, some x⟩ => .resolved x
        | some ⟨_, none⟩ => .pending
        | none => .failed (.noSlot a)
      else Chain.readSlot chain a := by
  unfold Chain.readSlot Chain.group? Frame.slot?
  rw [List.findSome?_cons]
  cases f.group? a.group with
  | none => rfl
  | some g => rfl

theorem Chain.frozen_of_readSlot {f : Frame} {a : SlotAddr} {x : Item}
    (hr : Chain.readSlot [f] a = .resolved x) : f.Frozen a x := by
  rw [Chain.readSlot_cons] at hr
  split at hr
  · split at hr
    · rename_i e y hs
      cases hr
      exact ⟨e, hs⟩
    · cases hr
    · cases hr
  · cases hr

theorem Chain.isOpen_of_readSlot {f : Frame} {a : SlotAddr}
    (hr : Chain.readSlot [f] a = .pending) : f.isOpen a := by
  rw [Chain.readSlot_cons] at hr
  split at hr
  · split at hr
    · cases hr
    · rename_i e hs
      exact Frame.isOpen_iff.mpr ⟨e, hs⟩
    · cases hr
  · cases hr

namespace Draft

variable {d : Draft} {a : SlotAddr} {e : Expr} {x : Item}

theorem groups_frame (d : Draft) : d.frame.groups = (d.groups.foldl Frame.addGroup {}).groups := by
  have hdeclare : ∀ (vars : List (VarId × Binding)) (f : Frame),
      (vars.foldl (fun f b => f.declare b.1 b.2) f).groups = f.groups := by
    intro vars
    induction vars with
    | nil => exact fun f => rfl
    | cons b vars ih => exact fun f => ih (f.declare b.1 b.2)
  exact hdeclare d.vars _

/-- The slots of a unit are open, and their expressions are those of its groups. -/
theorem slot?_frame {s : Slot} (hs : d.frame.slot? a = some s) :
    s.item = none ∧ ∃ g ∈ d.groups, s.expr ∈ g.slots := by
  have hgroups : ∀ (gs : List Group) (f : Frame), (∀ g ∈ gs, g ∈ d.groups) →
      (∀ {s}, f.slot? a = some s → s.item = none ∧ ∃ g ∈ d.groups, s.expr ∈ g.slots) →
      ∀ {s}, (gs.foldl Frame.addGroup f).slot? a = some s →
        s.item = none ∧ ∃ g ∈ d.groups, s.expr ∈ g.slots := by
    intro gs
    induction gs with
    | nil => exact fun f _ hf => hf
    | cons g gs ih =>
      intro f hmem hf
      refine ih _ (fun k hk => hmem k (List.mem_cons_of_mem g hk)) fun {s} hs => ?_
      rw [Frame.slot?_addGroup] at hs
      split at hs
      · obtain ⟨e, he, rfl⟩ := Option.map_eq_some_iff.mp hs
        exact ⟨rfl, g, hmem g List.mem_cons_self, List.mem_of_getElem? he⟩
      · exact hf hs
  refine hgroups d.groups {} (fun g hg => hg) (fun h => nomatch h) ?_
  simpa only [Frame.slot?, Frame.group?, groups_frame] using hs

end Draft

end Comptime
