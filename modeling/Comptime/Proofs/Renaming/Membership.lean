import Comptime.Proofs.Demands
import Comptime.Proofs.Renaming.Tracking
import Mathlib.Logic.Function.Basic

/-! Membership in a type does not depend on the names of the handles. -/
namespace Comptime

variable {r : Renaming} {D : Handle → Prop} {heap heap' : Heap} {x y : Item} {o : Object}

namespace Heap.Mirrors

variable (hm : heap.Mirrors r D heap')
include hm

theorem object? (hx : x.Within D) :
    heap'.object? (x.rename r) = (heap.object? x).map (Object.rename r) := by
  cases x with
  | ref h => exact hm.get? (hx h rfl)
  | _ => rfl

/-- What an object of `D` holds is within `D`. -/
theorem within_children (hx : x.Within D) (ho : heap.object? x = some o) :
    ∀ y ∈ o.children.map Prod.snd, y.Within D := by
  obtain ⟨h, hh, hg⟩ := Option.bind_eq_some_iff.mp ho
  have hd : D h := by
    cases x <;> cases hh
    exact hx _ rfl
  refine fun y hy => within_of_refsOf (fun k hk => hm.closed hd ?_) hy
  simpa [Heap.refs, Heap.items, Heap.children, hg] using hk

theorem type? (hx : x.Within D) :
    heap'.type? (x.rename r) = (heap.type? x).map (TypeValue.rename r) := by
  unfold Heap.type?
  rw [hm.object? hx]
  cases heap.object? x with
  | none => rfl
  | some o => cases o <;> rfl

variable (hs : Function.Injective r.slot)
include hs

theorem same (hx : x.Within D) (hy : y.Within D) : (x.rename r).same (y.rename r) = x.same y := by
  cases x with
  | ref h =>
    cases y with
    | ref k =>
      rw [Bool.eq_iff_iff]
      simp only [Item.rename, Item.same, beq_iff_eq]
      exact hm.eq_iff (hx h rfl) (hy k rfl)
    | _ => rfl
  | hole p =>
    cases y with
    | hole p' =>
      rw [Bool.eq_iff_iff]
      cases p <;> cases p' <;> simp [Item.rename, Item.same, Placeholder.rename, hs.eq_iff]
    | _ => rfl
  | _ => cases y <;> rfl

theorem hasFeature (hx : x.Within D) (hy : y.Within D) :
    heap'.hasFeature (x.rename r) (y.rename r) = heap.hasFeature x y := by
  unfold Heap.hasFeature
  rw [hm.object? hx]
  cases ho : heap.object? x with
  | none => rfl
  | some o =>
    cases o with
    | record features fields =>
      have hitems := hm.within_children hx ho
      simp only [Object.children, List.map_append, List.forall_mem_append] at hitems
      simp only [Option.map_some, Object.rename, List.any_map]
      rw [Bool.eq_iff_iff]
      simp only [List.any_eq_true, Function.comp_apply]
      refine exists_congr fun z => and_congr_right fun hz => ?_
      have hzd := hitems.1 z (mem_indexed_items.mpr hz)
      rw [hm.object? hzd]
      cases hz : heap.object? z with
      | none => rfl
      | some p =>
        cases p with
        | feature name key own =>
          have hkey : key.Within D := hm.within_children hzd hz key (by simp [Object.children])
          simp only [Option.map_some, Object.rename, hm.same hs hkey hy]
        | _ => rfl
    | _ => rfl

end Heap.Mirrors

def Demand.rename (r : Renaming) (d : Demand) : Demand := (d.1.rename r, d.2.rename r)

/-- Both sides of the demand are within `D`. -/
def Demand.Within (D : Handle → Prop) (d : Demand) : Prop := d.1.Within D ∧ d.2.Within D

theorem lookup_within {fields : Fields} {name : String}
    (hf : ∀ x ∈ fields.map Prod.snd, x.Within D) (hx : fields.lookup name = some x) :
    x.Within D := by
  obtain ⟨l, l', rfl, -⟩ := List.lookup_eq_some_iff.mp hx
  exact hf x (by simp)

theorem fieldDemands_rename (own fields : Fields) :
    fieldDemands (Fields.rename r own) (Fields.rename r fields) =
      (fieldDemands own fields).map (List.map (Demand.rename r)) := by
  induction fields with
  | nil => rfl
  | cons f fields ih =>
    obtain ⟨name, t⟩ := f
    change (do
      let value ← (Fields.rename r own).lookup name
      let demands ← fieldDemands (Fields.rename r own) (Fields.rename r fields)
      some ((t.rename r, value) :: demands)) = _
    rw [lookup_rename, ih, fieldDemands]
    cases own.lookup name with
    | none => rfl
    | some x => cases fieldDemands own fields <;> rfl

theorem fieldDemands_within {own fields : Fields} {ds : List Demand}
    (ho : ∀ x ∈ own.map Prod.snd, x.Within D) (hf : ∀ x ∈ fields.map Prod.snd, x.Within D)
    (h : fieldDemands own fields = some ds) : ∀ d ∈ ds, Demand.Within D d := by
  induction fields generalizing ds with
  | nil =>
    cases h
    exact fun d hd => nomatch hd
  | cons f fields ih =>
    obtain ⟨name, t⟩ := f
    rw [fieldDemands] at h
    obtain ⟨x, hx, h⟩ := Option.bind_eq_some_iff.mp h
    obtain ⟨es, hes, h⟩ := Option.bind_eq_some_iff.mp h
    cases h
    rw [List.map_cons, List.forall_mem_cons] at hf
    exact List.forall_mem_cons.mpr ⟨⟨hf.1, lookup_within ho hx⟩, ih hf.2 hes⟩

theorem eq_nil_of_provided {b : Bool} {ds : List Demand} (h : provided b = some ds) :
    ds = [] := by
  unfold provided at h
  split at h <;> cases h
  rfl

section

variable {t : TypeValue} (hm : heap.Mirrors r D heap')
include hm

theorem TypeValue.demands_within (ht : ∀ y ∈ t.kind.children.map Prod.snd, y.Within D)
    (hx : x.Within D) {ds : List Demand} (h : t.demands heap x = some ds) :
    ∀ d ∈ ds, Demand.Within D d := by
  have hnil : ds = [] → ∀ d ∈ ds, Demand.Within D d := by
    rintro rfl d hd
    cases hd
  unfold TypeValue.demands at h
  split at h
  case h_8 element items hk ho =>
    cases h
    intro d hd
    obtain ⟨y, hy, rfl⟩ := List.mem_map.mp hd
    have hitems := hm.within_children hx ho
    exact ⟨ht element (by simp [hk, TypeKind.children]), hitems y (mem_indexed_items.mpr hy)⟩
  case h_11 => exact hnil (eq_nil_of_provided h)
  case h_12 => exact hnil (eq_nil_of_provided h)
  case h_13 features fields rf own hk ho =>
    split at h
    · have hown := hm.within_children hx ho
      simp only [hk, TypeKind.children, Object.children, List.map_append,
        List.forall_mem_append] at ht hown
      exact fieldDemands_within (fun y hy => hown.2 y (mem_named_items.mpr hy))
        (fun y hy => ht.2 y (mem_named_items.mpr hy)) h
    · cases h
  all_goals
    cases h
    try exact hnil rfl

variable (hs : Function.Injective r.slot)
include hs

theorem TypeValue.demands_rename (ht : ∀ y ∈ t.kind.children.map Prod.snd, y.Within D)
    (hx : x.Within D) :
    (t.rename r).demands heap' (x.rename r) =
      (t.demands heap x).map (List.map (Demand.rename r)) := by
  obtain ⟨kind, applications⟩ := t
  unfold TypeValue.demands
  rw [hm.object? hx]
  cases kind with
  | missing | undef | null | bool | num | str =>
    cases x <;> rfl
  | list | type | anchor | generic site =>
    rcases heap.object? x with _ | o
    · rfl
    · cases o <;> rfl
  | listOf element =>
    rcases heap.object? x with _ | o
    · rfl
    · cases o with
      | seq items =>
        simp [TypeValue.rename, TypeKind.rename, Object.rename, Demand.rename]
      | _ => rfl
  | feature key =>
    have hkey : key.Within D := ht key (by simp [TypeKind.children])
    rcases ho : heap.object? x with _ | o
    · rfl
    · cases o with
      | feature name own fields =>
        have hown : own.Within D := hm.within_children hx ho own (by simp [Object.children])
        have hsame := hm.same hs hown hkey
        simp only [TypeValue.rename, TypeKind.rename, Object.rename, Option.map_some, hsame]
        cases own.same key <;> rfl
      | record features fields =>
        have hfeature := hm.hasFeature hs hx hkey
        simp only [TypeValue.rename, TypeKind.rename, Object.rename, Option.map_some, hfeature]
        cases heap.hasFeature x key <;> rfl
      | _ => rfl
  | object features fields =>
    simp only [TypeKind.children, List.map_append, List.forall_mem_append] at ht
    rcases ho : heap.object? x with _ | o
    · rfl
    · cases o with
      | record rf own =>
        have hall : (features.map (Item.rename r)).all (heap'.hasFeature (x.rename r)) =
            features.all (heap.hasFeature x) := by
          rw [List.all_map, Bool.eq_iff_iff, List.all_eq_true, List.all_eq_true]
          refine forall₂_congr fun y hy => ?_
          rw [Function.comp_apply, hm.hasFeature hs hx (ht.1 y (mem_indexed_items.mpr hy))]
        simp only [TypeValue.rename, TypeKind.rename, Object.rename, Option.map_some, hall]
        cases features.all (heap.hasFeature x) with
        | false => rfl
        | true => exact fieldDemands_rename own fields
      | _ => rfl

end

section Meets

/-- The second set has the renamed pairs of the first, as far as `D` goes. -/
def PairMirrors (r : Renaming) (D : Handle → Prop) (met met' : PairSet) : Prop :=
  ∀ h k, D h → D k → ((r.handle h, r.handle k) ∈ met' ↔ (h, k) ∈ met)

variable {met met' : PairSet} (hm : heap.Mirrors r D heap')

theorem PairMirrors.empty : PairMirrors r D {} {} := by
  intro h k _ _
  simp

theorem Demand.key?_rename (r : Renaming) (k : Handle × Handle) :
    (Demand.rename r (.ref k.1, .ref k.2)).key? = some (r.handle k.1, r.handle k.2) :=
  rfl

theorem compare_pair_eq {p q : Handle × Handle} :
    compareLex (compareOn Prod.fst) (compareOn Prod.snd) p q = .eq ↔ p = q := by
  simp [compareLex_eq_eq, compareOn, Prod.ext_iff]

include hm

theorem PairMirrors.insert (hp : PairMirrors r D met met') {h k : Handle} (hh : D h) (hk : D k) :
    PairMirrors r D (met.insert (h, k)) (met'.insert (r.handle h, r.handle k)) := by
  intro i j hi hj
  simp only [Std.TreeSet.mem_insert, compare_pair_eq, Prod.mk.injEq, hm.eq_iff hh hi,
    hm.eq_iff hk hj, hp i j hi hj]

variable (hs : Function.Injective r.slot)
include hs

theorem Heap.Mirrors.expand {d : Demand} (hd : Demand.Within D d) :
    heap'.expand (d.rename r) = (heap.expand d).map (List.map (Demand.rename r)) ∧
      ∀ ds, heap.expand d = some ds → ∀ e ∈ ds, Demand.Within D e := by
  have htype : ∀ t, heap.type? d.1 = some t → ∀ y ∈ t.kind.children.map Prod.snd, y.Within D := by
    intro t ht y hy
    unfold Heap.type? at ht
    split at ht
    · rename_i u ho
      cases ht
      refine hm.within_children hd.1 ho y ?_
      simp only [Object.children, List.map_append, List.mem_append]
      exact Or.inl hy
    · cases ht
  unfold Heap.expand
  simp only [Demand.rename]
  rw [hm.type? hd.1]
  cases ht : heap.type? d.1 with
  | none => simp
  | some t =>
    exact ⟨TypeValue.demands_rename hm hs (htype t ht) hd.2,
      fun ds hds => TypeValue.demands_within hm (htype t ht) hd.2 hds⟩

theorem Heap.Mirrors.meets {demands : List Demand} (hd : ∀ d ∈ demands, Demand.Within D d)
    (hp : PairMirrors r D met met') :
    heap'.meets met' (demands.map (Demand.rename r)) = heap.meets met demands := by
  fun_induction Heap.meets heap met demands generalizing met' with
  | case1 met => rw [List.map_nil, Heap.meets]
  | case2 met d rest hk ih =>
    obtain ⟨hd, hrest⟩ := List.forall_mem_cons.mp hd
    have hk' : (d.rename r).key? = none := by
      obtain ⟨a, b⟩ := d
      cases a <;> cases b <;> first | rfl | cases hk
    rw [List.map_cons, Heap.meets_of_key?_none hk', (Heap.Mirrors.expand hm hs hd).1,
      ih hrest hp, Option.isSome_map]
  | case3 met d rest k hk hmem ih =>
    obtain ⟨hd, hrest⟩ := List.forall_mem_cons.mp hd
    obtain rfl := Demand.eq_of_key? hk
    have hmem' := (hp k.1 k.2 (hd.1 k.1 rfl) (hd.2 k.2 rfl)).mpr hmem
    rw [List.map_cons, Heap.meets_of_met (Demand.key?_rename r k) hmem', ih hrest hp]
  | case4 met d rest k hk hmem he =>
    obtain ⟨hd, hrest⟩ := List.forall_mem_cons.mp hd
    obtain rfl := Demand.eq_of_key? hk
    have hmem' := (not_congr (hp k.1 k.2 (hd.1 k.1 rfl) (hd.2 k.2 rfl))).mpr hmem
    have he' := (Heap.Mirrors.expand hm hs hd).1
    rw [he, Option.map_none] at he'
    rw [List.map_cons, Heap.meets_of_not_met (Demand.key?_rename r k) hmem', he']
    rfl
  | case5 met d rest k hk hmem ds he ih =>
    obtain ⟨hd, hrest⟩ := List.forall_mem_cons.mp hd
    obtain rfl := Demand.eq_of_key? hk
    have hk1 := hd.1 k.1 rfl
    have hk2 := hd.2 k.2 rfl
    have hmem' := (not_congr (hp k.1 k.2 hk1 hk2)).mpr hmem
    obtain ⟨he', hds⟩ := Heap.Mirrors.expand hm hs hd
    rw [he, Option.map_some] at he'
    have hall : ∀ e ∈ ds ++ rest, Demand.Within D e :=
      List.forall_mem_append.mpr ⟨hds ds he, hrest⟩
    rw [List.map_cons, Heap.meets_of_not_met (Demand.key?_rename r k) hmem', he', Option.elim_some,
      ← List.map_append]
    exact ih hall (hp.insert hm hk1 hk2)

/-- A type contains the renamed item exactly if it contained the item. -/
theorem TypeValue.contains_rename {t : TypeValue}
    (ht : ∀ y ∈ t.kind.children.map Prod.snd, y.Within D) (hx : x.Within D) :
    (t.rename r).contains heap' (x.rename r) = t.contains heap x := by
  rw [TypeValue.contains_eq, TypeValue.contains_eq, TypeValue.demands_rename hm hs ht hx]
  cases hd : t.demands heap x with
  | none => rfl
  | some ds => exact hm.meets hs (TypeValue.demands_within hm ht hx hd) PairMirrors.empty

end Meets

end Comptime
