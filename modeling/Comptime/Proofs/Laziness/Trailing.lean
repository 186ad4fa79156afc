import Comptime.Proofs.Refilling
import Comptime.Proofs.Renumbering.Settlement
import Comptime.Proofs.Substitution
import Comptime.Proofs.Visiting
import Mathlib

/-! Placeholders in place of what they stand for. Where one chain holds an item, another may hold a
placeholder that leads to it. Settlement then finds the same in both. -/
namespace Comptime

open Relation

namespace Chain

variable {chain chain' : Chain} {x y z : Item}

/-- The first item is a placeholder for a slot that is frozen with the second. -/
def Holds (chain : Chain) (x y : Item) : Prop :=
  ∃ a, x = .hole (.slot a) ∧ readSlot chain a = .resolved y

/-- The slots of the chain lead from the second item to the first. -/
def Trails (chain : Chain) (x y : Item) : Prop := ReflTransGen (Holds chain) y x

/-- What a placeholder reads as in the second chain leads there to what it reads as in the first. -/
def Behind (chain chain' : Chain) : Prop :=
  ∀ p, (read chain p).Sim True True (Trails chain') (read chain' p)

theorem Holds.reads (h : Holds chain x y) : Reads chain x y := by
  obtain ⟨a, rfl, ha⟩ := h
  exact reads_hole.mpr ha

theorem Trails.reads (h : Trails chain x y) : ReflTransGen (Reads chain) y x :=
  ReflTransGen.mono (fun _ _ => Holds.reads) _ _ h

/-- What a slot is frozen with is what its placeholder trails. -/
theorem Trails.head {a : SlotAddr} (h : Trails chain x y) (ha : readSlot chain a = .resolved y) :
    Trails chain x (.hole (.slot a)) :=
  ReflTransGen.head ⟨a, rfl, ha⟩ h

/-- More slots may be frozen. -/
theorem Trails.mono (hc : ∀ {a x}, readSlot chain a = .resolved x → readSlot chain' a = .resolved x)
    (h : Trails chain x y) : Trails chain' x y := by
  refine ReflTransGen.mono ?_ _ _ h
  rintro _ _ ⟨a, rfl, ha⟩
  exact ⟨a, rfl, hc ha⟩

theorem Behind.rests_iff (hb : Behind chain chain') : Rests chain' x ↔ Rests chain x := by
  constructor
  · intro h p hp
    have hread := hb p
    rw [h p hp] at hread
    exact hread.pending'
  · intro h p hp
    have hread := hb p
    rw [h p hp] at hread
    exact hread.pending

/-- Both chains end at the same item. -/
theorem Behind.ends_iff (hb : Behind chain chain') (hxy : Trails chain' x y) :
    Ends chain' y z ↔ Ends chain x z := by
  constructor
  · rintro ⟨hreads, hrests⟩
    -- One read in the second chain comes nearer to `x`, or is made in the first chain as well.
    induction hreads using ReflTransGen.head_induction_on generalizing x with
    | refl =>
      obtain rfl | ⟨u, hu, -⟩ := ReflTransGen.cases_head hxy
      · exact .of_rests (hb.rests_iff.mp hrests)
      · exact absurd hu.reads hrests.not_reads
    | @head y u hyu _ ih =>
      obtain rfl | ⟨v, hyv, hvx⟩ := ReflTransGen.cases_head hxy
      · obtain ⟨p, rfl, hp⟩ := hyu
        have hread := hb p
        rw [hp] at hread
        obtain ⟨v, hv, hvu⟩ := hread.resolved'
        exact Ends.reads (reads_hole.mpr hv) (ih hvu)
      · obtain rfl := reads_unique hyv.reads hyu
        exact ih hvx
  · rintro ⟨hreads, hrests⟩
    induction hreads using ReflTransGen.head_induction_on generalizing y with
    | refl => exact ⟨hxy.reads, hb.rests_iff.mpr hrests⟩
    | @head x u hxu _ ih =>
      obtain ⟨p, rfl, hp⟩ := hxu
      have hread := hb p
      rw [hp] at hread
      obtain ⟨v, hv, huv⟩ := hread.resolved
      obtain ⟨hv', hz⟩ := ih huv
      exact ⟨hxy.reads.trans (.head (reads_hole.mpr hv) hv'), hz⟩

theorem Behind.unsettled?_iff (hb : Behind chain chain') (hxy : Trails chain' x y) :
    unsettled? chain' y = none ↔ unsettled? chain x = none := by
  simp only [unsettled?_eq_none_iff, hb.ends_iff hxy]

theorem Behind.endOf_eq (hb : Behind chain chain') (hxy : Trails chain' x y)
    (hx : unsettled? chain x = none) : endOf chain' y = endOf chain x :=
  (ends_endOf ((hb.unsettled?_iff hxy).mpr hx)).unique ((hb.ends_iff hxy).mpr (ends_endOf hx))

/-- The same item is settled to the same. -/
theorem Behind.settled?_eq (hb : Behind chain chain') (hx : unsettled? chain x = none) :
    settled? chain' x = settled? chain x := by
  have hx' := (hb.unsettled?_iff (x := x) .refl).mpr hx
  have hend := hb.endOf_eq .refl hx
  have hsettle := settle_of_unsettled? hx
  have hsettle' := settle_of_unsettled? hx'
  unfold endOf at hend
  cases h : settled? chain x with
  | none =>
    rw [h, settle_eq_none_iff, ← hb.rests_iff, ← settle_eq_none_iff, hsettle'] at hsettle
    exact Except.ok.inj hsettle
  | some y =>
    cases h' : settled? chain' x with
    | none =>
      rw [h', settle_eq_none_iff, hb.rests_iff, ← settle_eq_none_iff, hsettle, h] at hsettle'
      cases hsettle'
    | some y' =>
      rw [h, h'] at hend
      exact congrArg some hend

end Chain

section Objects

theorem map_eq_of_forall₂ {α β γ : Type} {R : α → β → Prop} {f : α → γ} {g : β → γ} {as : List α}
    {bs : List β} (h : List.Forall₂ R as bs) (hfg : ∀ a ∈ as, ∀ b, R a b → g b = f a) :
    bs.map g = as.map f := by
  induction h with
  | nil => rfl
  | cons hab _ ih =>
    rw [List.forall_mem_cons] at hfg
    rw [List.map_cons, List.map_cons, hfg.1 _ hab, ih hfg.2]

theorem forall_mem_iff_of_forall₂ {α β : Type} {R : α → β → Prop} {P : α → Prop} {Q : β → Prop}
    {as : List α} {bs : List β} (h : List.Forall₂ R as bs) (hPQ : ∀ {a b}, R a b → (Q b ↔ P a)) :
    (∀ b ∈ bs, Q b) ↔ ∀ a ∈ as, P a := by
  induction h with
  | nil => simp
  | cons hab _ ih => rw [List.forall_mem_cons, List.forall_mem_cons, hPQ hab, ih]

variable {R : Item → Item → Prop} {o o' : Object} {g g' : Item → Option Item}

theorem TypeKind.places_shape (k : TypeKind) :
    k.shape.children.map Prod.fst = k.children.map Prod.fst := by
  cases k <;> simp [TypeKind.shape, TypeKind.children, map_fst_indexed, map_fst_named, blanks,
    Fields.blank, Function.comp_def]

theorem places_argumentsFrom_shape (n : Nat) (as : List Application) :
    (argumentsFrom n (as.map Application.shape)).map Prod.fst =
      (argumentsFrom n as).map Prod.fst := by
  induction as generalizing n with
  | nil => rfl
  | cons a as ih =>
    have hlen : (a.shape.args.getD []).length = (a.args.getD []).length := by
      cases h : a.args <;> simp [Application.shape, h, blanks]
    rw [List.map_cons, argumentsFrom_cons, argumentsFrom_cons, List.map_append, List.map_append, ih,
      map_fst_indexed, map_fst_indexed, hlen]

/-- The shape of an object has the places of its children. -/
theorem Object.places_shape (o : Object) :
    o.shape.children.map Prod.fst = o.children.map Prod.fst := by
  cases o with
  | type t =>
    rw [Object.shape, Object.children, Object.children, List.map_append, List.map_append,
      TypeKind.places_shape]
    exact congrArg _ (places_argumentsFrom_shape 0 t.applications)
  | _ =>
    simp [Object.shape, Object.children, map_fst_indexed, map_fst_named, blanks, Fields.blank,
      Stmt.itemsAll_mapItemsAll, Function.comp_def]

/-- The objects differ only in the items that they hold, and these are related. They are the same if
two of the items go by the same name. -/
structure Object.Trails (R : Item → Item → Prop) (o o' : Object) : Prop where
  shape : o'.shape = o.shape
  held : List.Forall₂ R o.held o'.held
  names : o' = o ∨ o.names.Nodup

theorem Object.Trails.refl (hR : ∀ x, R x x) (o : Object) : o.Trails R o :=
  ⟨rfl, List.forall₂_same.mpr fun x _ => hR x, Or.inl rfl⟩

theorem Object.Trails.mono {Q : Item → Item → Prop} (ho : o.Trails R o')
    (hR : ∀ x y, R x y → Q x y) : o.Trails Q o' :=
  ⟨ho.shape, ho.held.imp hR, ho.names⟩

/-- Replacing children looks only at the answers for the children. -/
theorem Object.replaceChildren_congr (hg : ∀ x ∈ o.held, g' x = g x) :
    o.replaceChildren g' = o.replaceChildren g := by
  have h := Object.replaceChildren_rename (r := {}) (o := o) (f := g) (g := g')
    fun x hx => by simpa using hg x hx
  simpa using h

/-- Once their children are replaced by the same, the objects are the same. -/
theorem Object.Trails.replaceChildren_eq (ho : o.Trails R o') (hg : ∀ x ∈ o.held, g' x = g x)
    (hR : ∀ x ∈ o.held, ∀ y, R x y → (g' y).getD y = (g x).getD x) :
    (o'.replaceChildren g').1 = (o.replaceChildren g).1 := by
  rcases ho.names with rfl | hn
  · rw [Object.replaceChildren_congr hg]
  have hnodup := Object.nodup_places_iff.mpr hn
  have hplaces : o'.children.map Prod.fst = o.children.map Prod.fst := by
    rw [← o'.places_shape, ← o.places_shape, ho.shape]
  rw [Object.replaceChildren_eq_land, Object.replaceChildren_eq_land]
  obtain ⟨hchildren, hshape⟩ := o.children_land_all fun c => g c.2
  obtain ⟨hchildren', hshape'⟩ := o'.children_land_all fun c => g' c.2
  refine Object.eq_of_shape (by rw [hshape, hshape', ho.shape]) ?_
  rw [hchildren, hchildren', landed_of_nodup hnodup, landed_of_nodup (hplaces ▸ hnodup),
    List.map_map, List.map_map]
  have hitems := map_eq_of_forall₂ ho.held hR
  unfold Object.held at hitems
  rw [List.map_map, List.map_map] at hitems
  exact hitems

/-- The heaps have related objects. -/
structure Heap.Trails (R : Item → Item → Prop) (heap heap' : Heap) : Prop where
  size : heap'.size = heap.size
  object : ∀ {h o o'}, heap.get? h = some o → heap'.get? h = some o' → o.Trails R o'

variable {heap heap' : Heap} {h : Handle}

/-- Both heaps have an object under a handle, or neither has. -/
theorem Heap.Trails.cases (hh : heap.Trails R heap') (h : Handle) :
    (heap.get? h = none ∧ heap'.get? h = none) ∨
      ∃ o o', heap.get? h = some o ∧ heap'.get? h = some o' ∧ o.Trails R o' := by
  by_cases hlt : h < heap.size
  · obtain ⟨o, ho⟩ := Heap.exists_get? hlt
    obtain ⟨o', ho'⟩ := Heap.exists_get? (hh.size ▸ hlt)
    exact Or.inr ⟨o, o', ho, ho', hh.object ho ho'⟩
  · have hle := Nat.le_of_not_lt hlt
    exact Or.inl ⟨Heap.get?_eq_none_iff.mpr hle, Heap.get?_eq_none_iff.mpr (hh.size ▸ hle)⟩

end Objects

namespace Chain

variable {chain chain' : Chain} {heap heap' : Heap} {d d' : Draft}

/-- The same objects settle, and then they are the same. -/
theorem Behind.settling (hb : Behind chain chain') (hh : heap.Trails (Trails chain') heap') :
    Settling {} (fun _ => True) chain chain' heap heap' where
  inj _ _ he := he
  closed _ _ := trivial
  settles {h} _ := by
    change (∀ y ∈ heap'.items h, _) ↔ _
    rcases hh.cases h with ⟨ho, ho'⟩ | ⟨o, o', ho, ho', hoo'⟩
    · simp [Heap.items, Heap.children, ho, ho']
    · rw [Heap.items_of_get? ho, Heap.items_of_get? ho']
      exact forall_mem_iff_of_forall₂ hoo'.held fun hxy => hb.unsettled?_iff hxy
  get? {h} _ hx := by
    change (settledHeap chain' heap').get? h = _
    rw [get?_settledHeap, get?_settledHeap]
    rcases hh.cases h with ⟨ho, ho'⟩ | ⟨o, o', ho, ho', hoo'⟩
    · rw [ho, ho']
      rfl
    · rw [Heap.items_of_get? ho] at hx
      rw [ho, ho', Option.map_some, Option.map_some, Option.map_some, Object.rename_id,
        hoo'.replaceChildren_eq (fun x hmem => hb.settled?_eq (hx x hmem))
          fun x hmem y hxy => hb.endOf_eq hxy (hx x hmem)]

/-- The slots and items of a program are known and settle. -/
structure SettlesProgram (chain : Chain) (program : Program) : Prop where
  frozen : chain.Frozen (Stmt.slotsAll program)
  slot : ∀ a ∈ Stmt.slotsAll program, unsettled? chain (chain.slotItem a) = none
  item : ∀ x ∈ Stmt.itemsAll program, unsettled? chain x = none

theorem settlesProgram_of_ok {p : Program} (h : d.settledProgram chain = .ok p) :
    SettlesProgram chain d.program := by
  obtain ⟨-, hslots, hitems⟩ := Draft.settledProgram_eq_subst h
  exact ⟨fun a ha => (hslots a ha).1, fun a ha => unsettled?_eq_none_iff.mpr ⟨_, (hslots a ha).2⟩,
    fun x hx => unsettled?_eq_none_iff.mpr ⟨_, hitems x hx⟩⟩

/-- A slot that is frozen in one of the chains is frozen in the other. -/
theorem Behind.slotItem (hb : Behind chain chain') (a : SlotAddr) :
    (readSlot chain' a = .resolved (chain'.slotItem a) ↔
      readSlot chain a = .resolved (chain.slotItem a)) ∧
      (readSlot chain a = .resolved (chain.slotItem a) →
        Trails chain' (chain.slotItem a) (chain'.slotItem a)) := by
  have hread : (readSlot chain a).Sim True True (Trails chain') (readSlot chain' a) := hb (.slot a)
  unfold Chain.slotItem
  cases h : readSlot chain a <;> cases h' : readSlot chain' a <;> rw [h, h'] at hread
  case resolved.resolved => exact ⟨by simp, fun _ => hread⟩
  case pending.pending | failed.failed => simp
  case resolved.pending | pending.resolved | failed.pending | pending.failed =>
    exact absurd trivial hread
  case resolved.failed | failed.resolved => exact hread.elim

theorem Behind.settlesProgram_iff (hb : Behind chain chain') {program : Program} :
    SettlesProgram chain' program ↔ SettlesProgram chain program := by
  have hfrozen : chain'.Frozen (Stmt.slotsAll program) ↔ chain.Frozen (Stmt.slotsAll program) :=
    forall₂_congr fun a _ => (hb.slotItem a).1
  constructor
  · rintro ⟨hf, hs, hi⟩
    have hf' := hfrozen.mp hf
    exact ⟨hf', fun a ha => (hb.unsettled?_iff ((hb.slotItem a).2 (hf' a ha))).mp (hs a ha),
      fun x hx => (hb.unsettled?_iff .refl).mp (hi x hx)⟩
  · rintro ⟨hf, hs, hi⟩
    exact ⟨hfrozen.mpr hf,
      fun a ha => (hb.unsettled?_iff ((hb.slotItem a).2 (hf a ha))).mpr (hs a ha),
      fun x hx => (hb.unsettled?_iff .refl).mpr (hi x hx)⟩

/-- The program is settled to the same, or in neither chain. -/
theorem Behind.agrees_settledProgram (hb : Behind chain chain') (hp : d'.program = d.program) :
    Agrees True (fun p p' => p' = p) (d.settledProgram chain) (d'.settledProgram chain') := by
  have hok : SettlesProgram chain d.program →
      d'.settledProgram chain' = d.settledProgram chain := by
    intro hs
    have hs' := hb.settlesProgram_iff.mpr hs
    rw [Draft.settledProgram_of_settles hs.frozen hs.slot hs.item]
    rw [← hp] at hs'
    rw [Draft.settledProgram_of_settles hs'.frozen hs'.slot hs'.item, hp]
    refine congrArg Except.ok (Stmt.substAll_congr _ (fun a ha => ?_) fun x hx => ?_)
    · exact hb.endOf_eq ((hb.slotItem a).2 (hs.frozen a ha)) (hs.slot a ha)
    · exact hb.endOf_eq .refl (hs.item x hx)
  cases h : d.settledProgram chain with
  | ok p =>
    rw [hok (settlesProgram_of_ok h), h]
    exact rfl
  | error e =>
    cases h' : d'.settledProgram chain' with
    | error e' => trivial
    | ok p' =>
      have hs := hb.settlesProgram_iff.mp (hp ▸ settlesProgram_of_ok h')
      cases h'.symm.trans ((hok hs).trans h)

end Chain

end Comptime
