import Comptime.Proofs.AccessPaths
import Comptime.Proofs.Patching
import Comptime.Proofs.Places
import Comptime.Proofs.Untracked
import Mathlib

/-! What a patch addresses. The path of a patch leads from a binding to one position of its
definition. No other position has the same path, but for two fields of one name and for a field
named like the key under which a record keeps its features. -/
namespace Comptime

section Places

/-- Feature `i` of a record and an element of what its field `__features` holds, as paths. -/
def Place.Crosses (p : Place) (is : List Nat) (q : Place) (js : List Nat) : Prop :=
  ∃ i, p = .feature i ∧ q = .field "__features" ∧ js = i :: is

/-- Two places of one object with indices after them are told apart by their keys. -/
theorem Place.keys_append_inj {p q : Place} {is js : List Nat} (hpq : p.ownerKind = q.ownerKind)
    (hp : p.isDeferred = false) (hq : q.isDeferred = false)
    (h : p.keys ++ is.map Key.index = q.keys ++ js.map Key.index) :
    (p = q ∧ is = js) ∨ p.Crosses is q js ∨ q.Crosses js p is := by
  have hmap {ks ls : List Nat} : ks.map Key.index = ls.map Key.index ↔ ks = ls :=
    List.map_inj_right fun _ _ => Key.index.inj
  cases p <;> cases q
  case field.feature n i =>
    obtain ⟨hn, his⟩ := List.cons.inj h
    exact .inr (.inr ⟨i, rfl, congrArg field (Key.name.inj hn), hmap.mp his⟩)
  case feature.field i n =>
    obtain ⟨hn, hjs⟩ := List.cons.inj h
    exact .inr (.inl ⟨i, rfl, congrArg field (Key.name.inj hn).symm, hmap.mp hjs.symm⟩)
  all_goals simp_all [ownerKind, isDeferred, keys]

namespace Heap

variable {heap : Heap} {h r : Handle} {i : Nat} {place : Place}

def fieldNames (heap : Heap) (h : Handle) : List String :=
  (heap.get? h).elim [] Object.fieldNames

theorem mem_refs_of_child (hc : (heap.children r)[i]? = some (place, .ref h)) :
    h ∈ heap.refs r :=
  mem_refsOf.mpr (List.mem_map.mpr ⟨_, List.mem_of_getElem? hc, rfl⟩)

theorem exists_object_of_child {c : Child} (hc : (heap.children r)[i]? = some c) :
    ∃ o, heap.get? r = some o ∧ o.children[i]? = some c := by
  unfold children at hc
  cases ho : heap.get? r with
  | none => simp [ho] at hc
  | some o => exact ⟨o, rfl, by simpa [ho] using hc⟩

/-- Only sequences are written in place while something is built. -/
theorem exists_seq_of_child {x : Item} (hi : heap.isInlinable h)
    (hc : (heap.children h)[i]? = some (place, x)) (hd : place.isDeferred = false) :
    ∃ items, heap.get? h = some (.seq items) ∧ items ≠ [] ∧ place = .index i := by
  obtain ⟨o, ho, hc⟩ := exists_object_of_child hc
  rw [isInlinable, ho] at hi
  cases o with
  | seq items =>
    simp only [Object.children, indexed, List.getElem?_map, List.getElem?_zipIdx,
      Option.map_map, Option.map_eq_some_iff] at hc
    obtain ⟨y, hy, hxy⟩ := hc
    refine ⟨items, ho, List.ne_nil_of_mem (List.mem_of_getElem? hy), ?_⟩
    simpa using (congrArg Prod.fst hxy).symm
  | function f =>
    have hdeferred := Output.isDeferred_children f _ (List.mem_of_getElem? hc)
    simp [hd] at hdeferred
  | type | anchor | feature | record => cases hi

end Heap

end Places

namespace Output

variable {out : Output} {start : List Handle} {h r : Handle} {steps steps' : List Nat}
  {path path' : List Place}

/-- The definition of `h` has a position at the end of `path`. The children at the positions
`steps` lead to it through objects that have no binding. -/
inductive Sits (out : Output) : Handle → List Nat → List Place → Prop
  | last {h : Handle} {i : Nat} {place : Place} {x : Item} :
    (out.heap.children h)[i]? = some (place, x) → place.isDeferred = false →
      Sits out h [i] [place]
  | through {h mid : Handle} {i : Nat} {place : Place} {steps : List Nat} {path : List Place} :
    (out.heap.children h)[i]? = some (place, .ref mid) → place.isDeferred = false →
      out.tracker.isTracked mid = false → Sits out mid steps path →
        Sits out h (i :: steps) (place :: path)

theorem Leads.sits {target : Handle} (hl : out.Leads h steps path target) :
    out.Sits h steps path := by
  induction hl with
  | last hc hd _ => exact .last hc hd
  | through hc hd hn _ ih => exact .through hc hd hn ih

/-- No two positions in the definition of `r` share a path. -/
def Separate (out : Output) (r : Handle) : Prop :=
  ∀ steps path steps' path', out.Sits r steps path → out.Sits r steps' path' →
    pathText path = pathText path' → steps = steps'

/-- The item is a sequence with elements, and they are written in its place. -/
def Unfolds (out : Output) (x : Item) : Prop :=
  ∃ h items, x = .ref h ∧ out.tracker.isTracked h = false ∧ out.heap.get? h = some (.seq items) ∧
    items ≠ []

/-- A record with features has a field `__features` with elements. Both are written under the same
key. -/
def Shadowed (out : Output) (r : Handle) : Prop :=
  ∃ features fields x, out.heap.get? r = some (.record features fields) ∧ features ≠ [] ∧
    ("__features", x) ∈ fields ∧ out.Unfolds x

section Positions

variable (hi : ∀ k, out.heap.Reach start k → out.tracker.isTracked k = false →
  out.heap.isInlinable k)
include hi

/-- Inside an object without a binding there are only elements of sequences. -/
theorem Sits.inner (hs : out.Sits h steps path) (hr : out.heap.Reach start h)
    (hn : out.tracker.isTracked h = false) :
    path = steps.map Place.index ∧ ∃ items, out.heap.get? h = some (.seq items) ∧ items ≠ [] := by
  induction hs with
  | last hc hd =>
    obtain ⟨items, ho, hne, rfl⟩ := Heap.exists_seq_of_child (hi _ hr hn) hc hd
    exact ⟨rfl, items, ho, hne⟩
  | through hc hd hmid _ ih =>
    obtain ⟨items, ho, hne, rfl⟩ := Heap.exists_seq_of_child (hi _ hr hn) hc hd
    obtain ⟨rfl, -⟩ := ih (.step hr (Heap.mem_refs_of_child hc)) hmid
    exact ⟨rfl, items, ho, hne⟩

/-- A position is at a child of the object, or among the elements that the child holds. -/
theorem Sits.outer (hs : out.Sits r steps path) (hr : out.heap.Reach start r) :
    ∃ i place x is, steps = i :: is ∧ path = place :: is.map Place.index ∧
      (out.heap.children r)[i]? = some (place, x) ∧ place.isDeferred = false ∧
        (is = [] ∨ out.Unfolds x) := by
  cases hs with
  | last hc hd => exact ⟨_, _, _, _, rfl, rfl, hc, hd, .inl rfl⟩
  | through hc hd hmid hs =>
    obtain ⟨rfl, items, ho, hne⟩ := hs.inner hi (.step hr (Heap.mem_refs_of_child hc)) hmid
    exact ⟨_, _, _, _, rfl, rfl, hc, hd, .inr ⟨_, items, rfl, hmid, ho, hne⟩⟩

end Positions

theorem flatMap_keys_index (is : List Nat) :
    (is.map Place.index).flatMap Place.keys = is.map Key.index := by
  induction is with
  | nil => rfl
  | cons i is ih => simp [ih, Place.keys]

/-- The keys on a path can be told from its text. -/
theorem keys_eq_of_pathText {p q : Place} {is js : List Nat}
    (h : pathText (p :: is.map Place.index) = pathText (q :: js.map Place.index)) :
    p.keys ++ is.map Key.index = q.keys ++ js.map Key.index := by
  have hchars := congrArg String.toList h
  rw [pathText_chars, pathText_chars] at hchars
  simpa [flatMap_keys_index] using keyChars_inj hchars

theorem shadowed_of_crosses {p q : Place} {is js : List Nat} {i j : Nat} {x y : Item}
    (hc : (out.heap.children r)[i]? = some (p, x)) (hd : (out.heap.children r)[j]? = some (q, y))
    (hjs : js = [] ∨ out.Unfolds y) (h : p.Crosses is q js) : out.Shadowed r := by
  obtain ⟨n, rfl, rfl, rfl⟩ := h
  have hy := hjs.resolve_left (List.cons_ne_nil _ _)
  obtain ⟨o, ho, hc⟩ := Heap.exists_object_of_child hc
  obtain ⟨o', ho', hd⟩ := Heap.exists_object_of_child hd
  obtain rfl : o = o' := Option.some.inj (ho.symm.trans ho')
  have hc := List.mem_of_getElem? hc
  have hd := List.mem_of_getElem? hd
  have hkind := o.ownerKind_place _ (List.mem_map_of_mem hc)
  cases o with
  | record features fields =>
    refine ⟨features, fields, y, ho, ?_, ?_, hy⟩
    · rintro rfl
      simp [Object.children, indexed, named] at hc
    · simpa [Object.children, indexed, named] using hd
  | _ => simp [Place.ownerKind, Object.kindName] at hkind

theorem separate_of_nodup (hi : ∀ k, out.heap.Reach start k → out.tracker.isTracked k = false →
    out.heap.isInlinable k) (hr : out.heap.Reach start r) (hn : (out.heap.fieldNames r).Nodup)
    (hs : ¬out.Shadowed r) : out.Separate r := by
  intro steps path steps' path' hp hq htext
  obtain ⟨i, p, x, is, rfl, rfl, hc, hpd, his⟩ := hp.outer hi hr
  obtain ⟨j, q, y, js, rfl, rfl, hd, hqd, hjs⟩ := hq.outer hi hr
  obtain ⟨o, ho, hoc⟩ := Heap.exists_object_of_child hc
  obtain ⟨o', ho', hod⟩ := Heap.exists_object_of_child hd
  obtain rfl : o = o' := Option.some.inj (ho.symm.trans ho')
  have hpo := o.ownerKind_place p (List.mem_map_of_mem (List.mem_of_getElem? hoc))
  have hqo := o.ownerKind_place q (List.mem_map_of_mem (List.mem_of_getElem? hod))
  obtain ⟨rfl, rfl⟩ | hcross | hcross :=
    Place.keys_append_inj (hpo.trans hqo.symm) hpd hqd (keys_eq_of_pathText htext)
  · -- the same place twice: only a field name that occurs twice could be at two children
    have hf : ∀ f, o ≠ .function f := by
      rintro f rfl
      have hdeferred := isDeferred_children f _ (List.mem_of_getElem? hoc)
      simp [hpd] at hdeferred
    have hplaces : (o.children.map Prod.fst).Nodup :=
      (Object.nodup_places hf).mpr (by simpa [Heap.fieldNames, ho] using hn)
    have hlt : i < (o.children.map Prod.fst).length := by
      simpa using (List.getElem?_eq_some_iff.mp hoc).1
    have hij : i = j := (List.getElem?_inj hlt hplaces).mp (by simp [hoc, hod])
    rw [hij]
  · exact absurd (shadowed_of_crosses hc hd hjs hcross) hs
  · exact absurd (shadowed_of_crosses hd hc his hcross) hs

theorem Separate.nodup (hs : out.Separate r) : (out.heap.fieldNames r).Nodup := by
  cases ho : out.heap.get? r with
  | none => simp [Heap.fieldNames, ho]
  | some o =>
    by_cases hf : ∃ f, o = .function f
    · obtain ⟨f, rfl⟩ := hf
      simp [Heap.fieldNames, ho, Object.fieldNames]
    rw [Heap.fieldNames, ho, Option.elim_some, ← Object.nodup_places (not_exists.mp hf),
      List.nodup_iff_getElem?_ne_getElem?]
    intro i j hij hj heq
    obtain ⟨p, hp⟩ : ∃ p, (o.children.map Prod.fst)[j]? = some p :=
      ⟨_, List.getElem?_eq_getElem hj⟩
    have hd : p.isDeferred = false :=
      Object.not_isDeferred_place (not_exists.mp hf) (List.mem_of_getElem? hp)
    have hsits {k : Nat} (hk : (o.children.map Prod.fst)[k]? = some p) : out.Sits r [k] [p] := by
      rw [List.getElem?_map, Option.map_eq_some_iff] at hk
      obtain ⟨⟨_, x⟩, hk, rfl⟩ := hk
      exact .last (x := x) (by simpa [Heap.children, ho] using hk) hd
    have hsteps := hs _ _ _ _ (hsits (heq.trans hp)) (hsits hp) rfl
    simp only [List.cons.injEq, and_true] at hsteps
    omega

theorem Separate.not_shadowed (hs : out.Separate r) : ¬out.Shadowed r := by
  rintro ⟨features, fields, _, ho, hfeatures, hfield, h, items, rfl, hh, hitems, hne⟩
  obtain ⟨x, features, rfl⟩ := List.exists_cons_of_ne_nil hfeatures
  obtain ⟨y, items, rfl⟩ := List.exists_cons_of_ne_nil hne
  have hchildren : out.heap.children r =
      indexed .feature (x :: features) ++ named .field fields := by
    simp [Heap.children, ho, Object.children]
  have hmem : (Place.field "__features", Item.ref h) ∈ out.heap.children r := by
    rw [hchildren]
    exact List.mem_append_right _ (List.mem_map.mpr ⟨_, hfield, rfl⟩)
  obtain ⟨j, hj⟩ := List.mem_iff_getElem?.mp hmem
  have hfeature : out.Sits r [0] [.feature 0] :=
    .last (x := x) (by simp [hchildren, indexed]) rfl
  have helement : out.Sits r [j, 0] [.field "__features", .index 0] :=
    .through hj rfl hh (.last (x := y) (by simp [Heap.children, hitems, Object.children, indexed])
      rfl)
  have htext : pathText [.feature 0] = pathText [.field "__features", .index 0] := by
    rw [← String.toList_inj, pathText_chars, pathText_chars]
    rfl
  have hsteps := hs _ _ _ _ hfeature helement htext
  simp at hsteps

theorem Sits.path_unique (hs : out.Sits h steps path) (hs' : out.Sits h steps path') :
    path = path' := by
  induction hs generalizing path' with
  | last hc _ =>
    cases hs' with
    | last hc' _ =>
      rw [hc] at hc'
      cases hc'
      rfl
    | through _ _ _ hs' => cases hs'
  | through hc _ _ hs ih =>
    cases hs' with
    | last _ _ => cases hs
    | through hc' _ _ hs' =>
      rw [hc] at hc'
      cases hc'
      rw [ih hs']

/-- The name of a binding can be told from the path after it. -/
theorem binding_append_inj {names : Naming} (hn : out.name = names.binding) {s : Handle}
    (hr : out.tracker.isTracked r) (hs : out.tracker.isTracked s)
    (h : out.binding r ++ pathText path = out.binding s ++ pathText path') :
    r = s ∧ pathText path = pathText path' := by
  obtain ⟨i, hi⟩ := Option.isSome_iff_exists.mp hr
  obtain ⟨j, hj⟩ := Option.isSome_iff_exists.mp hs
  have hstop (p : List Place) : ∀ c ∈ (pathText p).toList.head?, c.isDigit = false := by
    rw [pathText_chars]
    exact (stepStart_keyChars _).stops rfl rfl
  have hchars := congrArg String.toList h
  simp only [binding, hi, hj, Option.getD_some, hn, Naming.binding, String.toList_append,
    List.append_assoc, List.append_cancel_left_eq, Nat.toString_eq_repr, Nat.toList_repr] at hchars
  obtain ⟨rfl, hrest⟩ := toDigits_append_inj (hstop _) (hstop _) hchars
  rw [Tracker.id?_eq_some_iff] at hi hj
  exact ⟨Option.some.inj (hi.symm.trans hj), String.toList_inj.mp hrest⟩

/-- What a patch addresses. No two positions in the definition of a tracked object share a path
exactly if its fields have different names and none of them is in the way of its features. In that
case the text before the equals sign of a patch names one position of one object. -/
theorem separate_iff {heap : Heap} (calls : List Tracker.Call) (names : Naming)
    (ho : out = companionOutput heap (Tracker.run heap {} (calls ++ [.close])) names)
    (hr : out.tracker.isTracked r) :
    (out.Separate r ↔ (heap.fieldNames r).Nodup ∧ ¬out.Shadowed r) ∧
      ((heap.fieldNames r).Nodup → ¬out.Shadowed r → ∀ e, out.IsEdge e → e.source = r →
        ∀ s steps path, out.tracker.isTracked s → out.Sits s steps path →
          out.binding s ++ pathText path = out.edgePath e →
            s = e.source ∧ steps = e.steps ∧ path = e.path) := by
  obtain ⟨done, hl, hq⟩ := Tracker.ledger_run_close heap calls
  have hinlinable (k : Handle) : out.heap.Reach (Tracker.added calls ++ Tracker.rooted calls) k →
      out.tracker.isTracked k = false → out.heap.isInlinable k := by
    rw [ho]
    exact hl.isInlinable hq
  have hreach : out.heap.Reach (Tracker.added calls ++ Tracker.rooted calls) r := by
    rw [ho] at hr ⊢
    exact hl.reach_of_isTracked hq hr
  have hseparate := separate_of_nodup hinlinable hreach
  subst ho
  refine ⟨⟨fun hs => ⟨hs.nodup, hs.not_shadowed⟩, fun hs => hseparate hs.1 hs.2⟩, ?_⟩
  rintro hnodup hshadow e he rfl s steps path hs hsits htext
  obtain ⟨rfl, hpath⟩ := binding_append_inj rfl hs hr htext
  obtain rfl := hseparate hnodup hshadow _ _ _ _ hsits he.sits hpath
  exact ⟨rfl, rfl, hsits.path_unique he.sits⟩

/-- A record that carries a feature and has a field `__features` of its own. -/
def featuredHeap (elements : List Item) : Heap :=
  ⟨#[.feature "Own" (.ref 3) [("owner", .ref 1)],
    .record [.ref 0] [("__features", .ref 2), ("my own", .ref 1)], .seq elements, .anchor "Own"]⟩

/-- As long as the field has no elements, nothing is in the way of the feature. -/
theorem separate_iff_featured :
    (companionOutput (featuredHeap []) (Tracker.run (featuredHeap []) {}
      [.addRoot (.ref 0), .close]) {}).Separate 1 := by
  refine (separate_iff [.addRoot (.ref 0)] {} rfl (by cbv)).1.mpr ⟨by decide, ?_⟩
  rintro ⟨features, fields, _, ho, -, hfield, h, items, rfl, -, hitems, hne⟩
  cases ho
  simp only [List.mem_cons, List.not_mem_nil, or_false, Prod.mk.injEq, Item.ref.injEq] at hfield
  obtain ⟨-, rfl⟩ | ⟨hname, -⟩ := hfield
  · cases hitems
    exact hne rfl
  · exact absurd hname (by decide)

/-- The element gets the path of the feature. Both patches write to the same position, and the
other position keeps its `undefined`. -/
theorem not_separate_featured :
    (featuredHeap [.ref 1]).Closed ∧
      ∃ out, out = companionOutput (featuredHeap [.ref 1]) (Tracker.run (featuredHeap [.ref 1]) {}
          [.addRoot (.ref 0), .close]) {} ∧
        out.tracker.isTracked 1 ∧ ¬out.Separate 1 ∧
          out.companion = .ok (["export const item1 = Symbol(\"Own\");",
            "export const item2 = \x7b __features: [undefined], " ++
              "__features: [undefined], \"my own\": undefined \x7d;",
            "export const item0 = \x7b feature: \"Own\", anchor: item1, " ++
              "fields: \x7b owner: item2 \x7d \x7d;"],
            ["item2.__features[0] = item0;", "item2.__features[0] = item2;",
              "item2[\"my own\"] = item2;"]) := by
  refine ⟨by decide, _, rfl, by cbv, fun hs => ?_, by cbv⟩
  exact hs.not_shadowed
    ⟨[.ref 0], [("__features", .ref 2), ("my own", .ref 1)], .ref 2, rfl, by simp, by simp, 2,
      [.ref 1], rfl, by cbv, rfl, by simp⟩

end Output

end Comptime
