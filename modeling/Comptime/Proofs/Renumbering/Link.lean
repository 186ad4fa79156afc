import Comptime.Proofs.Evaluation.Soundness
import Comptime.Proofs.Renaming.Membership

/-! Links between the heaps of two evaluations. A link says which objects of the one stand for which
of the other; it grows as both store new objects. -/
namespace Comptime

/-- A partial map of handles, made when the heaps had the given sizes. -/
structure Link where
  dom : Handle → Prop
  map : Handle → Handle
  left : Nat
  right : Nat

namespace Link

/-- The second link maps what the first maps, and in the same way. -/
structure Sub (σ τ : Link) : Prop where
  dom : ∀ {h}, σ.dom h → τ.dom h
  map : ∀ {h}, σ.dom h → τ.map h = σ.map h

/-- The second link was made later: the pairs it adds are of objects stored since. -/
structure Le (σ τ : Link) : Prop extends Sub σ τ where
  left : σ.left ≤ τ.left
  right : σ.right ≤ τ.right
  fresh : ∀ {h}, τ.dom h → σ.dom h ∨ σ.left ≤ h ∧ σ.right ≤ τ.map h

variable {ρ : Renumbering} {n : Nat} {σ τ υ : Link}

theorem Le.refl (σ : Link) : σ.Le σ where
  dom := id
  map _ := rfl
  left := Nat.le_refl _
  right := Nat.le_refl _
  fresh := Or.inl

theorem Le.trans (h : σ.Le τ) (h' : τ.Le υ) : σ.Le υ where
  dom hd := h'.dom (h.dom hd)
  map hd := (h'.map (h.dom hd)).trans (h.map hd)
  left := Nat.le_trans h.left h'.left
  right := Nat.le_trans h.right h'.right
  fresh {k} hd := by
    rcases h'.fresh hd with hd | ⟨hl, hr⟩
    · rcases h.fresh hd with hs | ⟨hl, hr⟩
      · exact Or.inl hs
      · exact Or.inr ⟨hl, (h'.map hd).symm ▸ hr⟩
    · exact Or.inr ⟨Nat.le_trans h.left hl, Nat.le_trans h.right hr⟩

variable (ρ) in
/-- The second item is the first, renamed along the link. -/
def Pair (σ : Link) (x y : Item) : Prop :=
  x.Within σ.dom ∧ y = x.rename (ρ.renaming σ.map)

variable (ρ) in
def Pairs (σ : Link) (xs ys : List Item) : Prop :=
  (∀ x ∈ xs, x.Within σ.dom) ∧ ys = xs.map (Item.rename (ρ.renaming σ.map))

variable (ρ) in
def PairFields (σ : Link) (fs gs : Fields) : Prop :=
  (∀ x ∈ fs.map Prod.snd, x.Within σ.dom) ∧ gs = Fields.rename (ρ.renaming σ.map) fs

variable (ρ) in
def PairArgs (σ : Link) (xs ys : Option (List Item)) : Prop :=
  (∀ zs, xs = some zs → ∀ x ∈ zs, x.Within σ.dom) ∧
    ys = xs.map (List.map (Item.rename (ρ.renaming σ.map)))

variable (ρ) in
def PairObject (σ : Link) (o p : Object) : Prop :=
  (∀ x ∈ o.children.map Prod.snd, x.Within σ.dom) ∧ p = o.rename (ρ.renaming σ.map)

variable (ρ n) in
def PairType (σ : Link) (t u : TypeValue) : Prop :=
  t.Plain n ∧ (∀ x ∈ (Object.type t).children.map Prod.snd, x.Within σ.dom) ∧
    u = t.rename (ρ.renaming σ.map)

variable (ρ n) in
def PairValue (σ : Link) : Value → Value → Prop
  | .item x, .item y => σ.Pair ρ x y
  | .type t, .type u => σ.PairType ρ n t u
  | _, _ => False

section Mono

variable {x y : Item}

theorem Sub.within (h : σ.Sub τ) (hx : x.Within σ.dom) : x.Within τ.dom := hx.mono fun _ => h.dom

theorem Sub.rename (h : σ.Sub τ) (hx : x.Within σ.dom) :
    x.rename (ρ.renaming τ.map) = x.rename (ρ.renaming σ.map) :=
  Item.rename_congr (fun k hk => h.map (hx k hk)) rfl

theorem Pair.mono (hp : σ.Pair ρ x y) (h : σ.Sub τ) : τ.Pair ρ x y :=
  ⟨h.within hp.1, hp.2.trans (h.rename hp.1).symm⟩

theorem Pairs.mono {xs ys : List Item} (hp : σ.Pairs ρ xs ys) (h : σ.Sub τ) : τ.Pairs ρ xs ys :=
  ⟨fun x hx => h.within (hp.1 x hx),
    hp.2.trans (List.map_congr_left fun x hx => (h.rename (hp.1 x hx)).symm)⟩

theorem PairFields.mono {fs gs : Fields} (hp : σ.PairFields ρ fs gs) (h : σ.Sub τ) :
    τ.PairFields ρ fs gs :=
  ⟨fun x hx => h.within (hp.1 x hx),
    hp.2.trans (Fields.rename_congr fun x hx => (h.rename (hp.1 x hx)).symm)⟩

theorem PairArgs.mono {xs ys : Option (List Item)} (hp : σ.PairArgs ρ xs ys) (h : σ.Sub τ) :
    τ.PairArgs ρ xs ys := by
  refine ⟨fun zs hz x hx => h.within (hp.1 zs hz x hx), hp.2.trans ?_⟩
  cases xs with
  | none => rfl
  | some zs =>
    exact congrArg some (List.map_congr_left fun x hx => (h.rename (hp.1 zs rfl x hx)).symm)

theorem PairObject.mono {o p : Object} (hp : σ.PairObject ρ o p) (h : σ.Sub τ) :
    τ.PairObject ρ o p :=
  ⟨fun x hx => h.within (hp.1 x hx),
    hp.2.trans (Object.rename_congr (fun x hx => (h.rename (hp.1 x hx)).symm) rfl rfl)⟩

theorem PairType.mono {t u : TypeValue} (hp : σ.PairType ρ n t u) (h : σ.Sub τ) :
    τ.PairType ρ n t u :=
  ⟨hp.1, fun x hx => h.within (hp.2.1 x hx),
    hp.2.2.trans (TypeValue.rename_congr (fun x hx => (h.rename (hp.2.1 x hx)).symm) rfl)⟩

end Mono

section Build

variable {x y : Item} {xs ys : List Item} {fs gs : Fields}

theorem pairs_nil : σ.Pairs ρ [] [] := ⟨List.forall_mem_nil _, rfl⟩

theorem Pair.cons (hx : σ.Pair ρ x y) (hxs : σ.Pairs ρ xs ys) :
    σ.Pairs ρ (x :: xs) (y :: ys) :=
  ⟨List.forall_mem_cons.mpr ⟨hx.1, hxs.1⟩, by rw [hx.2, hxs.2, List.map_cons]⟩

theorem Pairs.append {xs' ys' : List Item} (h : σ.Pairs ρ xs ys) (h' : σ.Pairs ρ xs' ys') :
    σ.Pairs ρ (xs ++ xs') (ys ++ ys') :=
  ⟨List.forall_mem_append.mpr ⟨h.1, h'.1⟩, by rw [h.2, h'.2, List.map_append]⟩

theorem pairFields_nil : σ.PairFields ρ [] [] := ⟨List.forall_mem_nil _, rfl⟩

theorem Pair.consField (hx : σ.Pair ρ x y) (name : String) (hf : σ.PairFields ρ fs gs) :
    σ.PairFields ρ ((name, x) :: fs) ((name, y) :: gs) := by
  refine ⟨List.forall_mem_cons.mpr ⟨hx.1, hf.1⟩, ?_⟩
  rw [hx.2, hf.2]
  rfl

theorem Pairs.seq (h : σ.Pairs ρ xs ys) : σ.PairObject ρ (.seq xs) (.seq ys) :=
  ⟨fun x hx => h.1 x (mem_indexed_items.mp hx), congrArg Object.seq h.2⟩

theorem Pairs.record (h : σ.Pairs ρ xs ys) (hf : σ.PairFields ρ fs gs) :
    σ.PairObject ρ (.record xs fs) (.record ys gs) := by
  refine ⟨?_, by rw [h.2, hf.2, Object.rename]⟩
  simp only [Object.children, List.map_append, List.forall_mem_append]
  exact ⟨fun x hx => h.1 x (mem_indexed_items.mp hx), fun x hx => hf.1 x (mem_named_items.mp hx)⟩

theorem Pair.feature (hx : σ.Pair ρ x y) (name : String) (hf : σ.PairFields ρ fs gs) :
    σ.PairObject ρ (.feature name x fs) (.feature name y gs) := by
  refine ⟨?_, by rw [hx.2, hf.2, Object.rename]⟩
  simp only [Object.children, List.map_cons, List.forall_mem_cons]
  exact ⟨hx.1, fun x hx => hf.1 x (mem_named_items.mp hx)⟩

theorem pairObject_anchor (name : String) : σ.PairObject ρ (.anchor name) (.anchor name) :=
  ⟨List.forall_mem_nil _, rfl⟩

theorem PairType.object {t u : TypeValue} (h : σ.PairType ρ n t u) :
    σ.PairObject ρ (.type t) (.type u) :=
  ⟨h.2.1, congrArg Object.type h.2.2⟩

end Build

variable (ρ n) in
/-- The heaps have the sizes that the link was made for, and what it maps is stored in both. -/
structure Heaps (σ : Link) (heap heap' : Heap) : Prop where
  mirrors : heap.Mirrors (ρ.renaming σ.map) σ.dom heap'
  lt : ∀ {h}, σ.dom h → h < heap.size
  left : σ.left = heap.size
  right : σ.right = heap'.size
  sound : heap.Sound n
  sound' : heap'.Sound n

section Heaps

variable {heap heap' : Heap} {x y : Item} {o p : Object} {t u : TypeValue}

theorem Heaps.map_lt (hh : σ.Heaps ρ n heap heap') {h : Handle} (hd : σ.dom h) :
    σ.map h < heap'.size :=
  (hh.mirrors.lt_iff hd).mpr (hh.lt hd)

theorem Heaps.below (hh : σ.Heaps ρ n heap heap') (ho : σ.PairObject ρ o p) :
    o.Below heap.size ∧ p.Below heap'.size := by
  refine ⟨fun x hx => (ho.1 x hx).mono fun h hd => hh.lt hd, ?_⟩
  intro y hy
  rw [ho.2, Object.children_rename] at hy
  simp only [List.map_map, List.mem_map] at hy
  obtain ⟨c, hc, rfl⟩ := hy
  have hwithin := ho.1 c.2 (List.mem_map_of_mem hc)
  intro k hk
  cases hx : c.2 with
  | ref h =>
    simp only [Function.comp_apply, Child.rename, hx, Item.rename] at hk
    cases hk
    exact hh.map_lt (hwithin h hx)
  | _ => simp [Child.rename, hx, Item.rename] at hk

theorem plain_rename {o : Object} (ho : o.Plain n) (handle : Handle → Handle) :
    (o.rename (ρ.renaming handle)).Plain n := by
  intro u hu
  cases o <;> cases hu
  rename_i t
  obtain ⟨hkind, happs⟩ := ho t rfl
  refine ⟨fun site hs => ?_, fun a ha => ?_⟩
  · simp only [TypeValue.rename] at hs
    cases hk : t.kind <;> rw [hk] at hs <;> cases hs
    exact GenericOf.plain_renumber (hkind _ hk)
  · simp only [TypeValue.rename, List.mem_map] at ha
    obtain ⟨b, hb, rfl⟩ := ha
    exact GenericOf.plain_renumber (happs b hb)

/-- The link after both heaps stored one more object, the one for the other. -/
def push (σ : Link) : Link where
  dom h := σ.dom h ∨ h = σ.left
  map h := if h = σ.left then σ.right else σ.map h
  left := σ.left + 1
  right := σ.right + 1

theorem Heaps.le_push (hh : σ.Heaps ρ n heap heap') : σ.Le σ.push where
  dom := Or.inl
  map {h} hd := if_neg (hh.left ▸ Nat.ne_of_lt (hh.lt hd))
  left := Nat.le_succ _
  right := Nat.le_succ _
  fresh {h} hd := by
    rcases hd with hd | rfl
    · exact Or.inl hd
    · exact Or.inr ⟨Nat.le_refl _, Nat.le_of_eq (if_pos rfl).symm⟩

theorem Heaps.alloc (hh : σ.Heaps ρ n heap heap') (ho : σ.PairObject ρ o p) (hp : o.Plain n) :
    σ.push.Heaps ρ n (heap.alloc o) (heap'.alloc p) := by
  have hle := hh.le_push
  have hnew : σ.push.map heap.size = heap'.size := by rw [← hh.left, ← hh.right]; exact if_pos rfl
  have hold : ∀ {h}, σ.dom h → σ.push.map h = σ.map h := hle.map
  have hne : ∀ {h}, σ.dom h → σ.map h ≠ heap'.size := fun hd => Nat.ne_of_lt (hh.map_lt hd)
  have hcases : ∀ {h}, σ.push.dom h → σ.dom h ∨ h = heap.size := by
    intro h hd
    rwa [← hh.left]
  have hget : ∀ {h}, σ.dom h → (heap.alloc o).get? h = heap.get? h :=
    fun hd => (Heap.grows_alloc heap o).get? (hh.lt hd)
  have hlast : (heap.alloc o).get? heap.size = some o := by rw [Heap.get?_alloc, if_pos rfl]
  have hobject : ∀ {h}, σ.push.dom h → ∀ q, (heap.alloc o).get? h = some q →
      ∀ x ∈ q.children.map Prod.snd, x.Within σ.dom := by
    intro h hd q hq
    rcases hcases hd with hd | rfl
    · rw [hget hd] at hq
      exact hh.mirrors.within_children (x := .ref h) (by rintro _ ⟨⟩; exact hd) hq
    · cases hlast.symm.trans hq
      exact ho.1
  refine ⟨⟨?_, ?_, ?_⟩, ?_, ?_, ?_, hh.sound.alloc (hh.below ho).1 hp, ?_⟩
  · intro h k hd hk he
    change σ.push.map h = σ.push.map k at he
    rcases hcases hd with hd | rfl <;> rcases hcases hk with hk | rfl
    · rw [hold hd, hold hk] at he
      exact hh.mirrors.inj hd hk he
    · rw [hold hd, hnew] at he
      exact absurd he (hne hd)
    · rw [hold hk, hnew] at he
      exact absurd he.symm (hne hk)
    · rfl
  · intro h k hd hk
    cases hq : (heap.alloc o).get? h with
    | none => simp [Heap.refs, Heap.items, Heap.children, hq, refsOf] at hk
    | some q =>
      simp only [Heap.refs, Heap.items, Heap.children, hq, Option.elim_some, refsOf,
        List.mem_filterMap] at hk
      obtain ⟨x, hx, hxk⟩ := hk
      cases x <;> cases hxk
      exact Or.inl (hobject hd q hq _ hx k rfl)
  · intro h hd
    change (heap'.alloc p).get? (σ.push.map h) = _
    have hcongr : ∀ q, (heap.alloc o).get? h = some q →
        q.rename (ρ.renaming σ.push.map) = q.rename (ρ.renaming σ.map) := fun q hq =>
      Object.rename_congr (fun x hx => hle.rename (hobject hd q hq x hx)) rfl rfl
    rcases hcases hd with hd | rfl
    · rw [hold hd, Heap.get?_alloc, if_neg (hne hd)]
      refine (hh.mirrors.get? hd).trans ?_
      rw [hget hd]
      cases hq : heap.get? h with
      | none => rfl
      | some q => exact congrArg some (hcongr q ((hget hd).trans hq)).symm
    · rw [hnew, Heap.get?_alloc, if_pos rfl, hlast, ho.2]
      exact congrArg some (hcongr o hlast).symm
  · intro h hd
    rw [Heap.size_alloc]
    rcases hcases hd with hd | rfl
    · exact Nat.lt_succ_of_lt (hh.lt hd)
    · exact Nat.lt_succ_self _
  · rw [Heap.size_alloc, ← hh.left]
    rfl
  · rw [Heap.size_alloc, ← hh.right]
    rfl
  · exact hh.sound'.alloc (hh.below ho).2 (ho.2 ▸ plain_rename hp σ.map)

theorem Heaps.pair_alloc (hh : σ.Heaps ρ n heap heap') :
    σ.push.Pair ρ (.ref heap.size) (.ref heap'.size) := by
  refine ⟨?_, ?_⟩
  · rintro h ⟨⟩
    exact Or.inr hh.left.symm
  · change _ = Item.ref (σ.push.map heap.size)
    rw [← hh.left, ← hh.right]
    exact congrArg Item.ref (if_pos rfl).symm

theorem Heaps.type? (hh : σ.Heaps ρ n heap heap') (hx : σ.Pair ρ x y)
    (ht : heap.type? x = some t) : ∃ u, heap'.type? y = some u ∧ σ.PairType ρ n t u := by
  refine ⟨t.rename (ρ.renaming σ.map), ?_, hh.sound.type? ht, ?_, rfl⟩
  · rw [hx.2, hh.mirrors.type? hx.1, ht, Option.map_some]
  · unfold Heap.type? at ht
    split at ht
    · rename_i t' ho
      cases ht
      exact hh.mirrors.within_children hx.1 ho
    · cases ht

theorem Heaps.type?_eq_none (hh : σ.Heaps ρ n heap heap') (hx : σ.Pair ρ x y)
    (ht : heap.type? x = none) : heap'.type? y = none := by
  rw [hx.2, hh.mirrors.type? hx.1, ht, Option.map_none]

end Heaps

end Link

end Comptime
