import Comptime.Proofs.Evaluation.Laws
import Comptime.Proofs.Renaming.Frames
import Comptime.Proofs.Renaming.Reading

/-! Two evaluations in lockstep. They do the same at every step, up to the names of handles, and so
end in the same way. -/
namespace Comptime

def Fault.rename (r : Renaming) : Fault → Fault
  | .neverResolved x => .neverResolved (x.rename r)
  | .selfReference x => .selfReference (x.rename r)
  | .slotStillOpen a => .slotStillOpen (r.slot a)
  | .noSlot a => .noSlot (r.slot a)
  | .notGeneric t => .notGeneric (t.rename r)
  | .awaitsTwice t n => .awaitsTwice (t.rename r) n
  | .noArguments t => .noArguments (t.rename r)
  | .notApplicable t => .notApplicable (t.rename r)
  | .bodyNotType name x => .bodyNotType name (x.rename r)
  | .notType x => .notType (x.rename r)
  | .operands op x y => .operands op (x.rename r) (y.rename r)
  | .noMember x name => .noMember (x.rename r) name
  | .notLowered a => .notLowered (r.slot a)
  | .notInline kind h => .notInline kind (r.handle h)
  | .noBodyItem h i => .noBodyItem (r.handle h) i
  | .noPlace h place => .noPlace (r.handle h) place
  | e => e

@[simp]
theorem Fault.rename_id (e : Fault) : e.rename {} = e := by
  cases e <;> simp [Fault.rename]

/-- How two evaluations run in lockstep. -/
structure Lockstep where
  /-- What a handle of the first is called in the second, -/
  handle : Handle → Handle
  /-- if it is one of these. -/
  dom : Handle → Prop
  /-- The slots and variables that may be read. -/
  reads : Placeholder → Prop
  /-- The generics that types may name. -/
  generic : Generic → Prop
  /-- Whether the first may be cut off because specializations nest too deep. The second may then
  do as it likes. -/
  cutOff : Prop
  /-- Whether both may be cut off, the one where the other is. -/
  deep : Prop

namespace Lockstep

variable (s : Lockstep) {α β γ δ : Type}

def ren : Renaming := { handle := s.handle }

/-- The item may be met: it names such a handle or such a slot or variable, if it names any. -/
structure Shows (x : Item) : Prop where
  within : x.Within s.dom
  reads : ∀ p, x = .hole p → s.reads p

/-- The item may be met, and is the same on both sides. -/
structure Steady (x : Item) : Prop where
  shows : s.Shows x
  fixed : x.Within fun h => s.handle h = h

def Pair (x y : Item) : Prop := s.Shows x ∧ y = x.rename s.ren

def Pairs (xs ys : List Item) : Prop :=
  (∀ x ∈ xs, s.Shows x) ∧ ys = xs.map (Item.rename s.ren)

def PairFields (fs gs : Fields) : Prop :=
  (∀ x ∈ fs.map Prod.snd, s.Shows x) ∧ gs = Fields.rename s.ren fs

def PairOption (x y : Option Item) : Prop :=
  (∀ z, x = some z → s.Shows z) ∧ y = x.map (Item.rename s.ren)

def PairArgs (xs ys : Option (List Item)) : Prop :=
  (∀ zs, xs = some zs → ∀ x ∈ zs, s.Shows x) ∧ ys = xs.map (List.map (Item.rename s.ren))

structure PairObject (o p : Object) : Prop where
  shows : ∀ x ∈ o.children.map Prod.snd, s.Shows x
  generic : ∀ g ∈ o.generics, s.generic g
  eq : p = o.rename s.ren

structure PairType (t u : TypeValue) : Prop where
  shows : ∀ x ∈ (Object.type t).children.map Prod.snd, s.Shows x
  generic : ∀ g ∈ t.generics, s.generic g
  eq : u = t.rename s.ren

def PairValue : Value → Value → Prop
  | .item x, .item y => s.Pair x y
  | .type t, .type u => s.PairType t u
  | _, _ => False

def PairFault (e e' : Fault) : Prop := (e = .tooDeep → s.deep) ∧ e' = e.rename s.ren

/-- Both resolve, both wait, or both fail. -/
inductive Ends (R : α → β → Prop) : Outcome α → Outcome β → Prop
  | resolved {a : α} {b : β} (h : R a b) : Ends R (.resolved a) (.resolved b)
  | pending : Ends R .pending .pending
  | failed {e e' : Fault} (h : s.PairFault e e') : Ends R (.failed e) (.failed e')

/-- What is stored in the one heap is stored in the other, and the next objects will correspond. -/
structure Heaps (heap heap' : Heap) : Prop where
  mirrors : heap.Mirrors s.ren s.dom heap'
  next : ∀ k, s.dom (heap.size + k) ∧ s.handle (heap.size + k) = heap'.size + k
  reads : ∀ {h p}, s.dom h → .hole p ∈ heap.items h → s.reads p
  generic : ∀ {h o}, s.dom h → heap.get? h = some o → ∀ g ∈ o.generics, s.generic g

/-- The frames hold the same, and their variables are bound to slots that may be read. -/
structure Frames (f f' : Frame) : Prop where
  shows : f.All (fun _ => True) s.Shows
  bound : ∀ {v a}, (v, Binding.slot a) ∈ f.vars → s.reads (.slot a)
  eq : f' = f.rename s.ren

/-- What may be read in the chains corresponds. -/
structure Chains (chain chain' : Chain) : Prop where
  slot : ∀ {a}, s.reads (.slot a) →
    s.Ends s.Pair (Chain.readSlot chain a) (Chain.readSlot chain' a)
  var : ∀ {v}, s.reads (.var v) →
    s.Ends s.PairOption (Chain.readVar chain v) (Chain.readVar chain' v)

/-- The computations end alike on any two heaps that correspond, which they keep so, unless the
first is cut off. -/
def Alike (R : α → β → Prop) (c : Eval α) (c' : Eval β) : Prop :=
  ∀ ⦃heap heap'⦄, s.Heaps heap heap' →
    s.cutOff ∧ (c heap).1 = .failed .tooDeep ∨
      s.Heaps (c heap).2 (c' heap').2 ∧ s.Ends R (c heap).1 (c' heap').1

variable {s} {x y : Item} {xs ys : List Item} {fs gs : Fields} {t u : TypeValue}

section Build

theorem Steady.rename_eq (hx : s.Steady x) : x.rename s.ren = x := by
  have h : x.rename s.ren = x.rename {} := Item.rename_congr (fun h hh => hx.fixed h hh) rfl
  rw [h, Item.rename_id, id]

theorem Steady.pair (hx : s.Steady x) : s.Pair x x := ⟨hx.shows, hx.rename_eq.symm⟩

theorem steady_const (hx : ∀ h, x ≠ .ref h) (hr : ∀ p, x = .hole p → s.reads p) : s.Steady x :=
  ⟨⟨fun h he => absurd he (hx h), hr⟩, fun h he => absurd he (hx h)⟩

theorem pair_const (hx : ∀ h, x ≠ .ref h) (hr : ∀ p, x ≠ .hole p) : s.Pair x x :=
  (steady_const hx fun p he => absurd he (hr p)).pair

theorem renameObject_steady {o : Object}
    (ho : ∀ x ∈ o.children.map Prod.snd, s.Steady x) : o.rename s.ren = o := by
  have hitems : ∀ x ∈ o.children.map Prod.snd, x.rename s.ren = x.rename {} := by
    intro x hx
    rw [(ho x hx).rename_eq, Item.rename_id, id]
  rw [Object.rename_congr hitems rfl rfl, Object.rename_id]

theorem pairs_nil : s.Pairs [] [] := ⟨List.forall_mem_nil _, rfl⟩

theorem Pair.cons (hx : s.Pair x y) (hxs : s.Pairs xs ys) : s.Pairs (x :: xs) (y :: ys) :=
  ⟨List.forall_mem_cons.mpr ⟨hx.1, hxs.1⟩, by rw [hx.2, hxs.2, List.map_cons]⟩

theorem pairFields_nil : s.PairFields [] [] := ⟨List.forall_mem_nil _, rfl⟩

theorem Pair.consField (hx : s.Pair x y) (name : String) (hf : s.PairFields fs gs) :
    s.PairFields ((name, x) :: fs) ((name, y) :: gs) := by
  refine ⟨List.forall_mem_cons.mpr ⟨hx.1, hf.1⟩, ?_⟩
  rw [hx.2, hf.2]
  rfl

theorem Pairs.seq (h : s.Pairs xs ys) : s.PairObject (.seq xs) (.seq ys) where
  shows x hx := h.1 x (mem_indexed_items.mp hx)
  generic _ hg := nomatch hg
  eq := congrArg Object.seq h.2

theorem Pairs.record (h : s.Pairs xs ys) (hf : s.PairFields fs gs) :
    s.PairObject (.record xs fs) (.record ys gs) where
  shows := by
    simp only [Object.children, List.map_append, List.forall_mem_append]
    exact ⟨fun x hx => h.1 x (mem_indexed_items.mp hx),
      fun x hx => hf.1 x (mem_named_items.mp hx)⟩
  generic _ hg := nomatch hg
  eq := by rw [h.2, hf.2, Object.rename]

theorem Pair.feature (hx : s.Pair x y) (name : String) (hf : s.PairFields fs gs) :
    s.PairObject (.feature name x fs) (.feature name y gs) where
  shows := by
    simp only [Object.children, List.map_cons, List.forall_mem_cons]
    exact ⟨hx.1, fun x hx => hf.1 x (mem_named_items.mp hx)⟩
  generic _ hg := nomatch hg
  eq := by rw [hx.2, hf.2, Object.rename]

theorem pairObject_anchor (name : String) : s.PairObject (.anchor name) (.anchor name) where
  shows := List.forall_mem_nil _
  generic _ hg := nomatch hg
  eq := rfl

theorem PairFields.function (hf : s.PairFields fs gs) (name : String) (params : List String)
    {body : List Stmt} (hb : ∀ x ∈ Stmt.itemsAll body, s.Steady x) :
    s.PairObject (.function ⟨name, params, body, fs⟩) (.function ⟨name, params, body, gs⟩) where
  shows := by
    simp only [Object.children, List.map_append, List.forall_mem_append]
    exact ⟨fun x hx => hf.1 x (mem_named_items.mp hx),
      fun x hx => (hb x (mem_indexed_items.mp hx)).shows⟩
  generic _ hg := nomatch hg
  eq := by
    have hbody : Stmt.renameAll s.ren body = Stmt.renameAll {} body :=
      Stmt.renameAll_congr (fun x hx => by rw [(hb x hx).rename_eq, Item.rename_id, id]) rfl
    rw [hf.2, Object.rename, Closure.rename, hbody, Stmt.renameAll_id]

theorem PairType.object (h : s.PairType t u) : s.PairObject (.type t) (.type u) :=
  ⟨h.shows, h.generic, congrArg Object.type h.eq⟩

theorem PairObject.type {p : Object} (h : s.PairObject (.type t) p) :
    s.PairType t (t.rename s.ren) :=
  ⟨h.shows, h.generic, rfl⟩

theorem PairType.generic?_eq (h : s.PairType t u) : u.generic? = t.generic? := by
  rw [h.eq, TypeValue.generic?_rename]
  exact congrFun Option.map_id t.generic?

end Build

section Heaps

variable {heap heap' : Heap} {o p : Object}

/-- Both heaps store one more object, the one for the other. -/
theorem Heaps.alloc (hh : s.Heaps heap heap') (ho : s.PairObject o p) :
    s.Heaps (heap.alloc o) (heap'.alloc p) := by
  obtain ⟨hdom, hnext⟩ : s.dom heap.size ∧ s.handle heap.size = heap'.size := hh.next 0
  have hold : ∀ {h}, s.dom h → h ≠ heap.size → s.handle h ≠ heap'.size := by
    intro h hd hne he
    exact hne (hh.mirrors.inj hd hdom (he.trans hnext.symm))
  have hitems : ∀ {h x}, x ∈ (heap.alloc o).items h →
      h = heap.size ∧ s.Shows x ∨ x ∈ heap.items h := by
    intro h x hx
    by_cases hlast : h = heap.size
    · have hget : (heap.alloc o).get? h = some o := by rw [Heap.get?_alloc, if_pos hlast]
      rw [Heap.items_of_get? hget] at hx
      exact Or.inl ⟨hlast, ho.shows x hx⟩
    · have hget : (heap.alloc o).get? h = heap.get? h := by rw [Heap.get?_alloc, if_neg hlast]
      simp only [Heap.items, Heap.children, hget] at hx
      exact Or.inr hx
  refine ⟨⟨hh.mirrors.inj, fun {h k} hd hk => ?_, fun {h} hd => ?_⟩, fun k => ?_,
    fun {h p} hd hp => ?_, fun {h q} hd hq => ?_⟩
  · rcases hitems (mem_refsOf.mp hk) with ⟨-, hx⟩ | hx
    · exact hx.within k rfl
    · exact hh.mirrors.closed hd (mem_refsOf.mpr hx)
  · change (heap'.alloc p).get? (s.handle h) = _
    rw [Heap.get?_alloc, Heap.get?_alloc]
    by_cases hlast : h = heap.size
    · subst hlast
      rw [if_pos hnext, if_pos rfl, ho.eq, Option.map_some]
    · rw [if_neg (hold hd hlast), if_neg hlast]
      exact hh.mirrors.get? hd
  · have h := hh.next (k + 1)
    rw [Heap.size_alloc, Heap.size_alloc]
    rwa [show heap.size + 1 + k = heap.size + (k + 1) by omega,
      show heap'.size + 1 + k = heap'.size + (k + 1) by omega]
  · rcases hitems hp with ⟨-, hx⟩ | hx
    · exact hx.reads p rfl
    · exact hh.reads hd hx
  · rw [Heap.get?_alloc] at hq
    split at hq
    · cases hq
      exact ho.generic
    · exact hh.generic hd hq

theorem Heaps.pair_alloc (hh : s.Heaps heap heap') : s.Pair (.ref heap.size) (.ref heap'.size) := by
  obtain ⟨hdom, hnext⟩ := hh.next 0
  refine ⟨⟨?_, by simp⟩, (congrArg Item.ref hnext).symm⟩
  rintro h ⟨⟩
  exact hdom

theorem Heaps.object? (hh : s.Heaps heap heap') (hx : s.Pair x y)
    (ho : heap.object? x = some o) : s.PairObject o (o.rename s.ren) := by
  obtain ⟨h, hh', hget⟩ := Option.bind_eq_some_iff.mp ho
  cases x with
  | ref k =>
    cases hh'
    have hd : s.dom h := hx.1.within h rfl
    refine ⟨fun z hz => ⟨hh.mirrors.within_children hx.1.within ho z hz, ?_⟩,
      hh.generic hd hget, rfl⟩
    rintro p rfl
    exact hh.reads hd (by rwa [Heap.items_of_get? hget])
  | _ => cases hh'

theorem Heaps.type?_eq (hh : s.Heaps heap heap') (hx : s.Pair x y) :
    heap'.type? y = (heap.type? x).map (TypeValue.rename s.ren) := by
  rw [hx.2]
  exact hh.mirrors.type? hx.1.within

theorem Heaps.type? (hh : s.Heaps heap heap') (hx : s.Pair x y) (ht : heap.type? x = some t) :
    s.PairType t (t.rename s.ren) := by
  unfold Heap.type? at ht
  split at ht
  · rename_i t' ho
    cases ht
    exact (hh.object? hx ho).type
  · cases ht

end Heaps

section Reading

variable {f f' : Frame} {chain chain' : Chain} {R : α → β → Prop}

theorem Ends.mono {Q : α → β → Prop} {o : Outcome α} {o' : Outcome β} (h : s.Ends R o o')
    (hR : ∀ a b, R a b → Q a b) : s.Ends Q o o' := by
  cases h with
  | resolved h => exact .resolved (hR _ _ h)
  | pending => exact .pending
  | failed h => exact .failed h

theorem Ends.and {P : α → Prop} {o : Outcome α} {o' : Outcome β} (h : s.Ends R o o')
    (hP : ∀ a, o = .resolved a → P a) : s.Ends (fun a b => R a b ∧ P a) o o' := by
  cases h with
  | resolved h => exact .resolved ⟨h, hP _ rfl⟩
  | pending => exact .pending
  | failed h => exact .failed h

theorem Ends.bind {Q : γ → δ → Prop} {o : Outcome α} {o' : Outcome β} {g : α → Outcome γ}
    {g' : β → Outcome δ} (h : s.Ends R o o') (hg : ∀ a b, R a b → s.Ends Q (g a) (g' b)) :
    s.Ends Q (o >>= g) (o' >>= g') := by
  cases h with
  | resolved h => exact hg _ _ h
  | pending => exact .pending
  | failed h => exact .failed h

theorem Ends.map {Q : γ → δ → Prop} {o : Outcome α} {o' : Outcome β} (h : s.Ends R o o')
    {g : α → γ} {g' : β → δ} (hR : ∀ a b, R a b → Q (g a) (g' b)) :
    s.Ends Q (g <$> o) (g' <$> o') := by
  cases h with
  | resolved h => exact .resolved (hR _ _ h)
  | pending => exact .pending
  | failed h => exact .failed h

theorem ends_failed {e : Fault} (he : e ≠ .tooDeep) :
    s.Ends R (.failed e) (.failed (e.rename s.ren)) :=
  .failed ⟨fun h => absurd h he, rfl⟩

theorem frames_steady (hf : f.All (fun _ => True) s.Steady)
    (hb : ∀ {v a}, (v, Binding.slot a) ∈ f.vars → s.reads (.slot a)) : s.Frames f f := by
  refine ⟨hf.mono (fun _ h => h) fun x hx => hx.shows, hb, ?_⟩
  exact (Frame.rename_eq_self (hf.mono (fun _ h => h) fun x hx => hx.rename_eq)).symm

theorem chains_nil : s.Chains [] [] where
  slot _ := ends_failed (by simp)
  var _ := .resolved ⟨by simp, rfl⟩

/-- What may be read inside of corresponding frames corresponds. -/
theorem Frames.chains (hf : s.Frames f f') (hc : s.Chains chain chain') :
    s.Chains (f :: chain) (f' :: chain') := by
  have hslot : ∀ {a}, s.reads (.slot a) →
      s.Ends s.Pair (Chain.readSlot (f :: chain) a) (Chain.readSlot (f' :: chain') a) := by
    intro a ha
    rw [Chain.readSlot_cons, Chain.readSlot_cons, hf.eq, Frame.group?_rename, Frame.slot?_rename,
      Option.isSome_map]
    split
    · cases hs : f.slot? a with
      | none => exact ends_failed (by simp)
      | some slot =>
        obtain ⟨e, item⟩ := slot
        cases item with
        | none => exact .pending
        | some x => exact .resolved ⟨(hf.shows.slot? hs).2 x rfl, rfl⟩
    · exact hc.slot ha
  refine ⟨hslot, fun {v} hv => ?_⟩
  rw [Chain.readVar, Chain.readVar, hf.eq, Frame.lookup_rename, ← hf.eq]
  cases hb : f.vars.lookup v with
  | none => exact hc.var hv
  | some b =>
    have hmem := f.mem_vars_of_lookup hb
    cases b with
    | item x =>
      refine .resolved ⟨?_, rfl⟩
      rintro z ⟨⟩
      exact hf.shows.var hmem
    | slot a =>
      refine (hslot (hf.bound hmem)).map fun x y hxy => ⟨?_, ?_⟩
      · rintro z ⟨⟩
        exact hxy.1
      · rw [hxy.2]
        rfl

theorem ends_read (hc : s.Chains chain chain') {p : Placeholder} (hp : s.reads p) :
    s.Ends s.Pair (Chain.read chain p) (Chain.read chain' p) := by
  cases p with
  | slot a => exact hc.slot hp
  | var v =>
    refine (hc.var hp).bind fun x y hxy => ?_
    obtain ⟨hx, rfl⟩ := hxy
    cases x with
    | none => exact .resolved (pair_const (by simp) (by simp))
    | some x => exact .resolved ⟨hx x rfl, rfl⟩

end Reading

end Lockstep

end Comptime
