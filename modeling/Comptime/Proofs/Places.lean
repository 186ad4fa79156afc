import Comptime.Place
import Mathlib.Data.List.Nodup
import Mathlib.Data.List.Lattice

/-! The places of the children of an object. No two children share a place exactly if no two fields,
and no two captures, have the same name. -/
namespace Comptime

/-- The kind of the objects that have the place. -/
def Place.ownerKind : Place → String
  | index _ => "sequence"
  | field _ | feature _ => "object"
  | featureAnchor | featureField _ => "feature"
  | typeElement | typeAnchor | typeFeature _ | typeField _ | argument .. => "type"
  | capture _ | bodyItem _ => "function"

variable {place : Nat → Place} {label : String → Place} {items : List Item} {fields : Fields}

theorem map_fst_indexed :
    (indexed place items).map Prod.fst = (List.range items.length).map place := by
  rw [List.range_eq_range', ← List.zipIdx_map_snd 0 items, indexed, List.map_map, List.map_map]
  rfl

theorem map_fst_named :
    (named label fields).map Prod.fst = (fields.map Prod.fst).map label := by
  rw [named, List.map_map, List.map_map]
  rfl

/-- The names under which an object has children that are read while it is built. -/
def Object.fieldNames : Object → List String
  | record _ fields | feature _ _ fields | type ⟨.object _ fields, _⟩ => fields.map Prod.fst
  | _ => []

theorem nodup_places_indexed (hp : Function.Injective place) :
    ((indexed place items).map Prod.fst).Nodup := by
  rw [map_fst_indexed]
  exact List.nodup_range.map hp

theorem nodup_places_named (hl : Function.Injective label) :
    ((named label fields).map Prod.fst).Nodup ↔ (fields.map Prod.fst).Nodup := by
  rw [map_fst_named]
  exact List.nodup_map_iff hl

/-- Features and fields side by side, as records and their types have them. -/
theorem nodup_places_members (hp : Function.Injective place) (hl : Function.Injective label)
    (hne : ∀ i n, place i ≠ label n) :
    ((indexed place items ++ named label fields).map Prod.fst).Nodup ↔
      (fields.map Prod.fst).Nodup := by
  rw [List.map_append, List.nodup_append', nodup_places_named hl,
    and_iff_right (nodup_places_indexed hp)]
  refine and_iff_left ?_
  simp only [map_fst_indexed, map_fst_named, List.Disjoint, List.mem_map]
  rintro _ ⟨i, -, rfl⟩ ⟨n, -, hn⟩
  exact hne i n hn.symm

theorem TypeValue.nodup_places_arguments (t : TypeValue) :
    (t.arguments.map Prod.fst).Nodup := by
  have hentries : t.applications.zipIdx.Pairwise fun p q => p.2 ≠ q.2 := by
    rw [← List.pairwise_map, List.zipIdx_map_snd]
    exact List.nodup_range'
  rw [arguments, List.map_flatMap, List.nodup_flatMap]
  refine ⟨fun p _ => nodup_places_indexed fun _ _ h => (Place.argument.inj h).2,
    hentries.imp fun hne => ?_⟩
  simp only [Function.onFun, map_fst_indexed, List.Disjoint, List.mem_map]
  rintro _ ⟨i, -, rfl⟩ ⟨j, -, hj⟩
  exact hne (Place.argument.inj hj).1.symm

theorem TypeValue.mem_places_arguments {t : TypeValue} {p : Place}
    (hp : p ∈ t.arguments.map Prod.fst) : ∃ entry i, p = .argument entry i := by
  simp only [arguments, List.map_flatMap, map_fst_indexed, List.mem_flatMap, List.mem_map] at hp
  obtain ⟨a, -, i, -, rfl⟩ := hp
  exact ⟨a.2, i, rfl⟩

namespace Object

theorem ownerKind_place (o : Object) : ∀ p ∈ o.children.map Prod.fst, p.ownerKind = o.kindName := by
  cases o with
  | type t =>
    rw [children, List.map_append, List.forall_mem_append]
    constructor
    · obtain ⟨kind, applications⟩ := t
      cases kind <;>
        simp only [TypeKind.children, List.map_append, List.map_cons, List.map_nil, map_fst_indexed,
          map_fst_named, List.forall_mem_append, List.forall_mem_map, List.forall_mem_singleton] <;>
        simp [Place.ownerKind, kindName]
    · intro p hp
      obtain ⟨entry, i, rfl⟩ := TypeValue.mem_places_arguments hp
      rfl
  | seq | function | anchor | feature | record =>
    simp only [children, List.map_append, List.map_cons, List.map_nil, map_fst_indexed,
      map_fst_named, List.forall_mem_append, List.forall_mem_map, List.forall_mem_cons]
    simp [Place.ownerKind, kindName]

theorem not_isDeferred_place {o : Object} (ho : ∀ f, o ≠ function f) {p : Place}
    (hp : p ∈ o.children.map Prod.fst) : p.isDeferred = false := by
  have hkind := o.ownerKind_place p hp
  cases o with
  | function f => exact absurd rfl (ho f)
  | _ => cases p <;> simp [Place.ownerKind, kindName, Place.isDeferred] at hkind ⊢

/-- The children of an object have different places if its fields have different names. -/
theorem nodup_places {o : Object} (ho : ∀ f, o ≠ function f) :
    (o.children.map Prod.fst).Nodup ↔ o.fieldNames.Nodup := by
  cases o with
  | seq items =>
    exact iff_of_true (nodup_places_indexed fun _ _ => Place.index.inj) List.nodup_nil
  | function f => exact absurd rfl (ho f)
  | type t =>
    have hdisjoint : (t.kind.children.map Prod.fst).Disjoint (t.arguments.map Prod.fst) := by
      intro p hp hargs
      obtain ⟨entry, i, rfl⟩ := TypeValue.mem_places_arguments hargs
      cases hk : t.kind <;>
        simp [hk, TypeKind.children, map_fst_indexed, map_fst_named] at hp
    rw [children, List.map_append, List.nodup_append']
    simp only [t.nodup_places_arguments, hdisjoint, and_true]
    obtain ⟨kind, applications⟩ := t
    cases kind with
    | object features fields =>
      exact nodup_places_members (fun _ _ => Place.typeFeature.inj) (fun _ _ => Place.typeField.inj)
        (by simp)
    | _ => simp [TypeKind.children, fieldNames]
  | anchor name => exact iff_of_true List.nodup_nil List.nodup_nil
  | feature name key fields =>
    rw [children, List.map_cons, List.nodup_cons,
      nodup_places_named fun _ _ => Place.featureField.inj]
    refine and_iff_right ?_
    simp [map_fst_named]
  | record features fields =>
    exact nodup_places_members (fun _ _ => Place.feature.inj) (fun _ _ => Place.field.inj)
      (by simp)

/-- The names that an object gives to its children: those of its fields, or of what it captures. -/
def names : Object → List String
  | function f => f.captures.map Prod.fst
  | o => o.fieldNames

theorem nodup_places_iff {o : Object} : (o.children.map Prod.fst).Nodup ↔ o.names.Nodup := by
  cases o with
  | function f =>
    rw [children, List.map_append, List.nodup_append',
      nodup_places_named fun _ _ => Place.capture.inj]
    refine and_iff_left ⟨nodup_places_indexed fun _ _ => Place.bodyItem.inj, ?_⟩
    simp only [map_fst_indexed, map_fst_named, List.Disjoint, List.mem_map]
    rintro _ ⟨n, -, rfl⟩ ⟨i, -, hi⟩
    cases hi
  | seq | type | anchor | feature | record => exact nodup_places (by rintro _ ⟨⟩)

end Object

end Comptime
