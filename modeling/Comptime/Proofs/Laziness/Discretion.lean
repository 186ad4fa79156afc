import Comptime.Proofs.Evaluation.Soundness

/-! Units that only store what they read lazily. What such a unit inspects, by a test, an operator,
a member access or a specialization, comes from slots, variables and objects that lie in sight, and
nothing in sight was read lazily. Lazy reads can then be delayed: a placeholder does as well. -/
namespace Comptime

/-- Slots, variables and objects that may be inspected. -/
structure Sight where
  slot : SlotAddr → Prop
  var : VarId → Prop
  handle : Handle → Prop

namespace Sight

variable (s : Sight)

def Reads : Placeholder → Prop
  | .slot a => s.slot a
  | .var v => s.var v

/-- What the item refers to is in sight. -/
structure Shows (x : Item) : Prop where
  within : x.Within s.handle
  reads : ∀ p, x = .hole p → s.Reads p

/-- What is asked of one part of an expression that is inspected. -/
def Allows : Expr → Prop
  | .lit x => s.Shows x
  | .var v => s.var v
  | .slot a => s.slot a
  | .lazySlot _ => False
  | .function _ _ body _ => ∀ x ∈ Stmt.itemsAll body, s.Shows x
  | _ => True

end Sight

/-- The expression reads nothing lazily and only what is in sight, and so do the generics in it. -/
def Expr.Clear (s : Sight) (e : Expr) : Prop := Admits s.Allows (e.parts true)

/-- The expression may read lazily, but it only stores what it reads then. What it inspects is
clear. Its literal handles are below `n`, and names are not given twice where something that is not
clear is stored. -/
inductive Expr.Discreet (s : Sight) (n : Nat) : Expr → Prop
  | clear {e : Expr} (h : e.Clear s) : Discreet s n e
  | lit {x : Item} (h : x.Within (· < n)) : Discreet s n (.lit x)
  | var (v : VarId) : Discreet s n (.var v)
  | slot (a : SlotAddr) : Discreet s n (.slot a)
  | lazySlot (a : SlotAddr) : Discreet s n (.lazySlot a)
  | seq {es : List Expr} (he : ∀ e ∈ es, Discreet s n e) : Discreet s n (.seq es)
  | record {es : List Expr} {fs : List (String × Expr)} (he : ∀ e ∈ es, Discreet s n e)
    (hf : ∀ f ∈ fs, Discreet s n f.2) (hn : (fs.map Prod.fst).Nodup) : Discreet s n (.record es fs)
  | feature {name : String} {e : Expr} {fs : List (String × Expr)} (he : Discreet s n e)
    (hf : ∀ f ∈ fs, Discreet s n f.2) (hn : (fs.map Prod.fst).Nodup) :
    Discreet s n (.feature name e fs)
  | function {name : String} {params : List String} {body : List Stmt}
    {fs : List (String × Expr)} (hb : ∀ x ∈ Stmt.itemsAll body, x.Within (· < n))
    (hf : ∀ f ∈ fs, Discreet s n f.2) (hn : (fs.map Prod.fst).Nodup) :
    Discreet s n (.function name params body fs)
  | listOf {e : Expr} (he : Discreet s n e) : Discreet s n (.type (.listOf e))
  | featureOf {e : Expr} (he : Discreet s n e) : Discreet s n (.type (.feature e))
  | object {es : List Expr} {fs : List (String × Expr)} (he : ∀ e ∈ es, Discreet s n e)
    (hf : ∀ f ∈ fs, Discreet s n f.2) (hn : (fs.map Prod.fst).Nodup) :
    Discreet s n (.type (.object es fs))
  | generic {site : Generic} (h : site.Plain n) : Discreet s n (.type (.generic site))
  | apply {e : Expr} {es : Option (List Expr)} (he : e.Clear s)
    (hes : ∀ d ∈ es.getD [], Discreet s n d) : Discreet s n (.apply e es)

mutual

/-- Stores placeholders in place of lazy reads. A slot that is not known is read, so that the fault
stays. Nothing that is inspected is changed. -/
def Expr.delayed (known : SlotAddr → Bool) : Expr → Expr
  | .lazySlot a => if known a then .lit (.hole (.slot a)) else .slot a
  | .seq es => .seq (Expr.delayedAll known es)
  | .record es fs => .record (Expr.delayedAll known es) (Expr.delayedFields known fs)
  | .feature name e fs => .feature name (e.delayed known) (Expr.delayedFields known fs)
  | .function name params body fs => .function name params body (Expr.delayedFields known fs)
  | .type t => .type (t.delayed known)
  | .apply e es => .apply e (Expr.delayedArgs known es)
  | e => e

def Expr.delayedAll (known : SlotAddr → Bool) : List Expr → List Expr
  | [] => []
  | e :: es => e.delayed known :: Expr.delayedAll known es

def Expr.delayedFields (known : SlotAddr → Bool) : List (String × Expr) → List (String × Expr)
  | [] => []
  | (name, e) :: fs => (name, e.delayed known) :: Expr.delayedFields known fs

def Expr.delayedArgs (known : SlotAddr → Bool) : Option (List Expr) → Option (List Expr)
  | none => none
  | some es => some (Expr.delayedAll known es)

def TypeExpr.delayed (known : SlotAddr → Bool) : TypeExpr → TypeExpr
  | .listOf e => .listOf (e.delayed known)
  | .feature e => .feature (e.delayed known)
  | .object es fs => .object (Expr.delayedAll known es) (Expr.delayedFields known fs)
  | t => t

end

def GroupOf.delayed (known : SlotAddr → Bool) (g : Group) : Group :=
  { g with slots := g.slots.map (Expr.delayed known) }

namespace Draft

def known (d : Draft) (a : SlotAddr) : Bool := (d.frame.slot? a).isSome

/-- The unit with its lazy reads delayed. -/
def delayed (d : Draft) : Draft := { d with groups := d.groups.map (GroupOf.delayed d.known) }

/-- What the unit reads lazily it only stores. What is in sight reads and holds only what is, and is
read nowhere lazily. Every handle names an object that is handed in. -/
structure Discreet (s : Sight) (d : Draft) : Prop where
  closed : d.heap.Closed
  objects : ∀ {h o}, d.heap.get? h = some o → o.Plain d.heap.size
  range : ∀ {h}, s.handle h → h < d.heap.size
  shows : ∀ {h o}, s.handle h → d.heap.get? h = some o → ∀ x ∈ o.held, s.Shows x
  generics : ∀ {h o}, s.handle h → d.heap.get? h = some o →
    ∀ site ∈ o.generics, Admits s.Allows (GenericOf.parts true site)
  slots : ∀ {g i e}, g ∈ d.groups → g.slots[i]? = some e →
    e.Discreet s d.heap.size ∧ (s.slot ⟨g.id, i⟩ → e.Clear s)
  vars : ∀ {v x}, (v, Binding.item x) ∈ d.vars →
    x.Within (· < d.heap.size) ∧ (s.var v → s.Shows x)
  bound : ∀ {v a}, (v, Binding.slot a) ∈ d.vars → s.var v → s.slot a
  program : ∀ {x}, x ∈ Stmt.itemsAll d.program → x.Within (· < d.heap.size)

end Draft

variable {s t : Sight} {n : Nat} {known : SlotAddr → Bool} {e : Expr} {es : List Expr}
  {fs : List (String × Expr)}

section Widening

/-- More objects may be in sight. -/
structure Sight.Widens (s t : Sight) : Prop where
  slot : ∀ {a}, t.slot a ↔ s.slot a
  var : ∀ {v}, t.var v ↔ s.var v
  handle : ∀ {h}, s.handle h → t.handle h

namespace Sight

theorem Widens.refl (s : Sight) : s.Widens s := ⟨Iff.rfl, Iff.rfl, id⟩

theorem Widens.trans {u : Sight} (h : s.Widens t) (h' : t.Widens u) : s.Widens u :=
  ⟨h'.slot.trans h.slot, h'.var.trans h.var, fun hs => h'.handle (h.handle hs)⟩

variable (hw : s.Widens t)
include hw

theorem Shows.widen {x : Item} (hx : s.Shows x) : t.Shows x := by
  refine ⟨hx.within.mono fun _ => hw.handle, fun p hp => ?_⟩
  have hread := hx.reads p hp
  cases p with
  | slot a => exact hw.slot.mpr hread
  | var v => exact hw.var.mpr hread

theorem admits_widen {parts : List Expr} (h : Admits s.Allows parts) : Admits t.Allows parts := by
  intro p hp
  have hallow := h p hp
  cases p with
  | lit x => exact Shows.widen hw hallow
  | var v => exact hw.var.mpr hallow
  | slot a => exact hw.slot.mpr hallow
  | lazySlot a => exact hallow
  | function name params body fs => exact fun x hx => (hallow x hx).widen hw
  | _ => trivial

end Sight

theorem Expr.Discreet.widen (hw : s.Widens t) (he : e.Discreet s n) : e.Discreet t n := by
  induction he with
  | clear h => exact .clear (Sight.admits_widen hw h)
  | lit h => exact .lit h
  | var v => exact .var v
  | slot a => exact .slot a
  | lazySlot a => exact .lazySlot a
  | seq _ ih => exact .seq ih
  | record _ _ hn ihe ihf => exact .record ihe ihf hn
  | feature _ _ hn ihe ihf => exact .feature ihe ihf hn
  | function hb _ hn ihf => exact .function hb ihf hn
  | listOf _ ih => exact .listOf ih
  | featureOf _ ih => exact .featureOf ih
  | object _ _ hn ihe ihf => exact .object ihe ihf hn
  | generic h => exact .generic h
  | apply he _ ih => exact .apply (Sight.admits_widen hw he) ih

end Widening

theorem Expr.delayedAll_eq (es : List Expr) :
    Expr.delayedAll known es = es.map (Expr.delayed known) := by
  induction es with
  | nil => rfl
  | cons e es ih => rw [Expr.delayedAll, ih, List.map_cons]

theorem Expr.delayedFields_eq (fs : List (String × Expr)) :
    Expr.delayedFields known fs = fs.map fun f => (f.1, f.2.delayed known) := by
  induction fs with
  | nil => rfl
  | cons f fs ih => rw [Expr.delayedFields, ih, List.map_cons]

section Clear

mutual

/-- There is nothing to delay in what is clear. -/
theorem Expr.delayed_eq_of_admits {e : Expr} (he : Admits s.Allows (e.parts true)) :
    e.delayed known = e := by
  cases e with
  | lazySlot a => exact (he _ List.mem_cons_self).elim
  | seq es =>
    rw [Expr.parts, admits_cons] at he
    rw [Expr.delayed, Expr.delayedAll_eq_of_admits he.2]
  | record es fs =>
    rw [Expr.parts, admits_cons, admits_append] at he
    rw [Expr.delayed, Expr.delayedAll_eq_of_admits he.2.1, Expr.delayedFields_eq_of_admits he.2.2]
  | feature name e fs =>
    rw [Expr.parts, admits_cons, admits_append] at he
    rw [Expr.delayed, Expr.delayed_eq_of_admits he.2.1, Expr.delayedFields_eq_of_admits he.2.2]
  | function name params body fs =>
    rw [Expr.parts, admits_cons] at he
    rw [Expr.delayed, Expr.delayedFields_eq_of_admits he.2]
  | type t =>
    rw [Expr.parts, admits_cons] at he
    rw [Expr.delayed, TypeExpr.delayed_eq_of_admits he.2]
  | apply e es =>
    rw [Expr.parts, admits_cons, admits_append] at he
    rw [Expr.delayed, Expr.delayedArgs_eq_of_admits he.2.1]
  | _ => rfl

theorem Expr.delayedAll_eq_of_admits {es : List Expr}
    (he : Admits s.Allows (Expr.partsAll true es)) : Expr.delayedAll known es = es := by
  cases es with
  | nil => rfl
  | cons e es =>
    rw [Expr.partsAll, admits_append] at he
    rw [Expr.delayedAll, Expr.delayed_eq_of_admits he.1, Expr.delayedAll_eq_of_admits he.2]

theorem Expr.delayedFields_eq_of_admits {fs : List (String × Expr)}
    (he : Admits s.Allows (Expr.partsFields true fs)) : Expr.delayedFields known fs = fs := by
  match fs with
  | [] => rfl
  | (name, e) :: fs =>
    rw [Expr.partsFields, admits_append] at he
    rw [Expr.delayedFields, Expr.delayed_eq_of_admits he.1, Expr.delayedFields_eq_of_admits he.2]

theorem Expr.delayedArgs_eq_of_admits {es : Option (List Expr)}
    (he : Admits s.Allows (Expr.partsArgs true es)) : Expr.delayedArgs known es = es := by
  match es with
  | none => rfl
  | some es =>
    have hall : Admits s.Allows (Expr.partsAll true es) := he
    rw [Expr.delayedArgs, Expr.delayedAll_eq_of_admits hall]

theorem TypeExpr.delayed_eq_of_admits {t : TypeExpr} (ht : Admits s.Allows (t.parts true)) :
    t.delayed known = t := by
  cases t with
  | listOf e | feature e =>
    rw [TypeExpr.parts] at ht
    rw [TypeExpr.delayed, Expr.delayed_eq_of_admits ht]
  | object es fs =>
    rw [TypeExpr.parts, admits_append] at ht
    rw [TypeExpr.delayed, Expr.delayedAll_eq_of_admits ht.1, Expr.delayedFields_eq_of_admits ht.2]
  | _ => rfl

end

theorem Expr.Clear.plain (he : e.Clear s) (hs : ∀ {h}, s.handle h → h < n) : e.Plain n := by
  refine e.admits_below.mp fun p hp => ?_
  have hallow := he p hp
  cases p with
  | lit x => exact hallow.within.mono fun _ => hs
  | lazySlot a => exact hallow.elim
  | function name params body fs => exact fun x hx => (hallow x hx).within.mono fun _ => hs
  | _ => trivial

end Clear

section Plain

theorem Expr.plainFields_iff : Expr.PlainFields n fs ↔ ∀ f ∈ fs, f.2.Plain n := by
  induction fs with
  | nil => simp [Expr.PlainFields]
  | cons f fs ih => simp [Expr.PlainFields, ih]

theorem Expr.plainAll_delayed (he : ∀ e ∈ es, (e.delayed known).Plain n) :
    Expr.PlainAll n (Expr.delayedAll known es) := by
  rw [Expr.delayedAll_eq, Expr.plainAll_iff]
  exact List.forall_mem_map.mpr he

theorem Expr.plainFields_delayed (hf : ∀ f ∈ fs, (f.2.delayed known).Plain n) :
    Expr.PlainFields n (Expr.delayedFields known fs) := by
  rw [Expr.delayedFields_eq, Expr.plainFields_iff]
  exact List.forall_mem_map.mpr hf

/-- Once its lazy reads are delayed, nothing is read lazily. -/
theorem Expr.Discreet.plain_delayed (he : e.Discreet s n) (hs : ∀ {h}, s.handle h → h < n) :
    (e.delayed known).Plain n := by
  induction he with
  | clear h =>
    rw [Expr.delayed_eq_of_admits h]
    exact h.plain hs
  | lit h => exact h
  | var v | slot a => trivial
  | lazySlot a =>
    rw [Expr.delayed]
    split
    · rintro _ ⟨⟩
    · trivial
  | seq _ ih => exact Expr.plainAll_delayed ih
  | record _ _ _ ihe ihf => exact ⟨Expr.plainAll_delayed ihe, Expr.plainFields_delayed ihf⟩
  | feature _ _ _ ihe ihf => exact ⟨ihe, Expr.plainFields_delayed ihf⟩
  | function hb _ _ ihf => exact ⟨hb, Expr.plainFields_delayed ihf⟩
  | listOf _ ih | featureOf _ ih => exact ih
  | object _ _ _ ihe ihf => exact ⟨Expr.plainAll_delayed ihe, Expr.plainFields_delayed ihf⟩
  | generic h => exact h
  | @apply e es he _ ih =>
    refine ⟨he.plain hs, ?_⟩
    match es with
    | none => trivial
    | some es => exact Expr.plainAll_delayed ih

theorem Draft.Discreet.plain_delayed {d : Draft} (hd : d.Discreet s) : d.delayed.Plain where
  closed := hd.closed
  objects := hd.objects
  groups {g} hg := by
    obtain ⟨⟨id, label, slots⟩, hmem, rfl⟩ := List.mem_map.mp hg
    refine Expr.plainAll_iff.mpr (List.forall_mem_map.mpr fun e he => ?_)
    obtain ⟨i, hi⟩ := List.mem_iff_getElem?.mp he
    exact (hd.slots hmem hi).1.plain_delayed hd.range
  vars hv := (hd.vars hv).1
  program := hd.program

/-- All slots and variables are in sight, and the objects below `n`. -/
def Sight.below (n : Nat) : Sight where
  slot _ := True
  var _ := True
  handle h := h < n

namespace Sight

theorem shows_below {x : Item} (hx : x.Within (· < n)) : (Sight.below n).Shows x :=
  ⟨hx, fun p _ => by cases p <;> trivial⟩

theorem admits_of_law {parts : List Expr} (h : Admits (Law.below n).Allows parts) :
    Admits (Sight.below n).Allows parts := by
  intro p hp
  have hallow := h p hp
  cases p with
  | lit x => exact shows_below hallow
  | lazySlot a => exact hallow.elim
  | function name params body fs => exact fun x hx => shows_below (hallow x hx)
  | _ => trivial

end Sight

/-- A unit without lazy reads is discreet: all of it may be in sight. -/
theorem Draft.Plain.discreet {d : Draft} (hd : d.Plain) : d.Discreet (.below d.heap.size) := by
  have hheap := Heap.obeys_below.mpr ⟨Nat.le_refl _, hd.closed, hd.objects⟩
  refine ⟨hd.closed, hd.objects, id, fun _ ho x hx => ?_, fun _ ho site hsite => ?_,
    fun {g i e} hg he => ?_, fun hv => ?_, fun _ _ => trivial, hd.program⟩
  · exact Sight.shows_below ((hheap.object ho).held x hx)
  · exact Sight.admits_of_law ((hheap.object ho).generics site hsite)
  · have hplain := Expr.plainAll_iff.mp (hd.groups hg).slots e (List.mem_of_getElem? he)
    have hclear : e.Clear (.below d.heap.size) := Sight.admits_of_law (e.admits_below.mpr hplain)
    exact ⟨.clear hclear, fun _ => hclear⟩
  · exact ⟨hd.vars hv, fun _ => Sight.shows_below (hd.vars hv)⟩

end Plain

section Renumbering

variable {ρ : Renumbering}

/-! Renumbering the groups renumbers the parts. -/

mutual

theorem Expr.parts_renumber (deep : Bool) (e : Expr) :
    (e.renumber ρ).parts deep = (e.parts deep).map (Expr.renumber ρ) := by
  cases e with
  | lit | var | slot | lazySlot | anchor => rfl
  | seq es => simp [Expr.renumber, Expr.parts, Expr.partsAll_renumber deep es]
  | record es fs =>
    simp [Expr.renumber, Expr.parts, Expr.partsAll_renumber deep es,
      Expr.partsFields_renumber deep fs]
  | feature name e fs =>
    simp [Expr.renumber, Expr.parts, e.parts_renumber deep, Expr.partsFields_renumber deep fs]
  | type t => simp [Expr.renumber, Expr.parts, TypeExpr.parts_renumber deep t]
  | apply e es | qualify e es =>
    simp [Expr.renumber, Expr.parts, e.parts_renumber deep, Expr.partsArgs_renumber deep es]
  | function name params body fs =>
    simp [Expr.renumber, Expr.parts, Expr.partsFields_renumber deep fs]
  | member e name => simp [Expr.renumber, Expr.parts, e.parts_renumber deep]
  | contains a b | binary _ a b =>
    simp [Expr.renumber, Expr.parts, a.parts_renumber deep, b.parts_renumber deep]

theorem Expr.partsAll_renumber (deep : Bool) (es : List Expr) :
    Expr.partsAll deep (Expr.renumberAll ρ es) =
      (Expr.partsAll deep es).map (Expr.renumber ρ) := by
  cases es with
  | nil => rfl
  | cons e es =>
    simp [Expr.renumberAll, Expr.partsAll, e.parts_renumber deep, Expr.partsAll_renumber deep es]

theorem Expr.partsFields_renumber (deep : Bool) (fs : List (String × Expr)) :
    Expr.partsFields deep (Expr.renumberFields ρ fs) =
      (Expr.partsFields deep fs).map (Expr.renumber ρ) := by
  match fs with
  | [] => rfl
  | (name, e) :: fs =>
    simp [Expr.renumberFields, Expr.partsFields, e.parts_renumber deep,
      Expr.partsFields_renumber deep fs]

theorem Expr.partsArgs_renumber (deep : Bool) (es : Option (List Expr)) :
    Expr.partsArgs deep (Expr.renumberArgs ρ es) =
      (Expr.partsArgs deep es).map (Expr.renumber ρ) := by
  match es with
  | none => rfl
  | some es => exact Expr.partsAll_renumber deep es

theorem TypeExpr.parts_renumber (deep : Bool) (t : TypeExpr) :
    (t.renumber ρ).parts deep = (t.parts deep).map (Expr.renumber ρ) := by
  cases t with
  | listOf e | feature e => exact e.parts_renumber deep
  | object es fs =>
    simp [TypeExpr.renumber, TypeExpr.parts, Expr.partsAll_renumber deep es,
      Expr.partsFields_renumber deep fs]
  | generic site =>
    rw [TypeExpr.renumber, TypeExpr.parts, TypeExpr.parts]
    split
    · exact GenericOf.parts_renumber deep site
    · rfl
  | _ => rfl

theorem GenericOf.parts_renumber (deep : Bool) (site : Generic) :
    GenericOf.parts deep (site.renumber ρ) =
      (GenericOf.parts deep site).map (Expr.renumber ρ) := by
  match site with
  | ⟨_, _, _, groups, body⟩ =>
    simp [GenericOf.renumber, GenericOf.parts, GroupOf.partsAll_renumber deep groups,
      GroupOf.parts_renumber deep body]

theorem GroupOf.parts_renumber (deep : Bool) (g : Group) :
    GroupOf.parts deep (g.renumber ρ) = (GroupOf.parts deep g).map (Expr.renumber ρ) := by
  match g with
  | ⟨_, _, slots⟩ => exact Expr.partsAll_renumber deep slots

theorem GroupOf.partsAll_renumber (deep : Bool) (gs : List Group) :
    GroupOf.partsAll deep (GroupOf.renumberAll ρ gs) =
      (GroupOf.partsAll deep gs).map (Expr.renumber ρ) := by
  match gs with
  | [] => rfl
  | g :: gs =>
    simp [GroupOf.renumberAll, GroupOf.partsAll, GroupOf.parts_renumber deep g,
      GroupOf.partsAll_renumber deep gs]

end

namespace Sight

variable (s ρ) in
/-- The same slots in sight, by their new ids. -/
def renumber : Sight where
  slot b := ∃ a, s.slot a ∧ ρ.slot a = b
  var := s.var
  handle := s.handle

theorem Shows.renumber {x : Item} (hx : s.Shows x) :
    (s.renumber ρ).Shows (x.rename ρ.items) := by
  refine ⟨Item.within_rename hx.within, ?_⟩
  cases x with
  | hole p =>
    have hp := hx.reads p rfl
    cases p with
    | slot a =>
      rintro _ ⟨⟩
      exact ⟨a, hp, rfl⟩
    | var v =>
      rintro _ ⟨⟩
      exact hp
  | _ => rintro _ ⟨⟩

theorem admits_renumber {parts : List Expr} (h : Admits s.Allows parts) :
    Admits (s.renumber ρ).Allows (parts.map (Expr.renumber ρ)) := by
  refine List.forall_mem_map.mpr fun p hp => ?_
  have hallow := h p hp
  cases p with
  | lit x => exact Shows.renumber hallow
  | var v => exact hallow
  | slot a => exact ⟨a, hallow, rfl⟩
  | lazySlot a => exact hallow
  | function name params body fs =>
    change ∀ x ∈ Stmt.itemsAll (Stmt.renameAll ρ.items body), _
    rw [Stmt.itemsAll_rename]
    exact List.forall_mem_map.mpr fun x hx => (hallow x hx).renumber
  | _ => trivial

end Sight

theorem Expr.Clear.renumber (he : e.Clear s) : (e.renumber ρ).Clear (s.renumber ρ) := by
  rw [Expr.Clear, Expr.parts_renumber]
  exact Sight.admits_renumber he

theorem Expr.renumberFields_eq (fs : List (String × Expr)) :
    Expr.renumberFields ρ fs = fs.map fun f => (f.1, f.2.renumber ρ) := by
  induction fs with
  | nil => rfl
  | cons f fs ih => rw [Expr.renumberFields, ih, List.map_cons]

theorem Expr.nodup_renumberFields (hn : (fs.map Prod.fst).Nodup) :
    ((Expr.renumberFields ρ fs).map Prod.fst).Nodup := by
  rw [Expr.renumberFields_eq, List.map_map]
  exact hn

theorem Expr.forall_renumberAll {P : Expr → Prop} :
    (∀ e ∈ Expr.renumberAll ρ es, P e) ↔ ∀ e ∈ es, P (e.renumber ρ) := by
  rw [Expr.renumberAll_eq, List.forall_mem_map]

theorem Expr.forall_renumberFields {P : Expr → Prop} :
    (∀ f ∈ Expr.renumberFields ρ fs, P f.2) ↔ ∀ f ∈ fs, P (f.2.renumber ρ) := by
  rw [Expr.renumberFields_eq, List.forall_mem_map]

theorem Expr.Discreet.renumber (he : e.Discreet s n) :
    (e.renumber ρ).Discreet (s.renumber ρ) n := by
  induction he with
  | clear h => exact .clear h.renumber
  | lit h => exact .lit (Item.within_rename h)
  | var v => exact .var v
  | slot a => exact .slot _
  | lazySlot a => exact .lazySlot _
  | seq _ ih => exact .seq (Expr.forall_renumberAll.mpr ih)
  | record _ _ hn ihe ihf =>
    exact .record (Expr.forall_renumberAll.mpr ihe) (Expr.forall_renumberFields.mpr ihf)
      (Expr.nodup_renumberFields hn)
  | feature _ _ hn ihe ihf =>
    exact .feature ihe (Expr.forall_renumberFields.mpr ihf) (Expr.nodup_renumberFields hn)
  | function hb _ hn ihf =>
    refine .function ?_ (Expr.forall_renumberFields.mpr ihf) (Expr.nodup_renumberFields hn)
    rw [Stmt.itemsAll_rename]
    exact List.forall_mem_map.mpr fun x hx => Item.within_rename (hb x hx)
  | listOf _ ih => exact .listOf ih
  | featureOf _ ih => exact .featureOf ih
  | object _ _ hn ihe ihf =>
    exact .object (Expr.forall_renumberAll.mpr ihe) (Expr.forall_renumberFields.mpr ihf)
      (Expr.nodup_renumberFields hn)
  | generic h => exact .generic (GenericOf.plain_renumber h)
  | @apply e es he _ ih =>
    refine .apply he.renumber ?_
    match es with
    | none => exact List.forall_mem_nil _
    | some es => exact Expr.forall_renumberAll.mpr ih

section Delayed

variable {known' : SlotAddr → Bool}

mutual

theorem Expr.delayed_renumber (hk : ∀ a, known' (ρ.slot a) = known a)
    (e : Expr) :
    (e.renumber ρ).delayed known' = (e.delayed known).renumber ρ := by
  cases e with
  | lazySlot a =>
    rw [Expr.renumber, Expr.delayed, Expr.delayed, hk]
    split <;> rfl
  | seq es =>
    rw [Expr.renumber, Expr.delayed, Expr.delayed, Expr.renumber, Expr.delayedAll_renumber hk]
  | record es fs =>
    rw [Expr.renumber, Expr.delayed, Expr.delayed, Expr.renumber, Expr.delayedAll_renumber hk,
      Expr.delayedFields_renumber hk]
  | feature name e fs =>
    rw [Expr.renumber, Expr.delayed, Expr.delayed, Expr.renumber, Expr.delayed_renumber hk,
      Expr.delayedFields_renumber hk]
  | function name params body fs =>
    rw [Expr.renumber, Expr.delayed, Expr.delayed, Expr.renumber, Expr.delayedFields_renumber hk]
  | type t =>
    rw [Expr.renumber, Expr.delayed, Expr.delayed, Expr.renumber, TypeExpr.delayed_renumber hk]
  | apply e es =>
    rw [Expr.renumber, Expr.delayed, Expr.delayed, Expr.renumber, Expr.delayedArgs_renumber hk]
  | _ => rfl

theorem Expr.delayedAll_renumber (hk : ∀ a, known' (ρ.slot a) = known a)
    (es : List Expr) :
    Expr.delayedAll known' (Expr.renumberAll ρ es) =
      Expr.renumberAll ρ (Expr.delayedAll known es) := by
  cases es with
  | nil => rfl
  | cons e es =>
    rw [Expr.renumberAll, Expr.delayedAll, Expr.delayedAll, Expr.renumberAll,
      Expr.delayed_renumber hk, Expr.delayedAll_renumber hk]

theorem Expr.delayedFields_renumber (hk : ∀ a, known' (ρ.slot a) = known a)
    (fs : List (String × Expr)) :
    Expr.delayedFields known' (Expr.renumberFields ρ fs) =
      Expr.renumberFields ρ (Expr.delayedFields known fs) := by
  match fs with
  | [] => rfl
  | (name, e) :: fs =>
    rw [Expr.renumberFields, Expr.delayedFields, Expr.delayedFields, Expr.renumberFields,
      Expr.delayed_renumber hk, Expr.delayedFields_renumber hk]

theorem Expr.delayedArgs_renumber (hk : ∀ a, known' (ρ.slot a) = known a)
    (es : Option (List Expr)) :
    Expr.delayedArgs known' (Expr.renumberArgs ρ es) =
      Expr.renumberArgs ρ (Expr.delayedArgs known es) := by
  match es with
  | none => rfl
  | some es =>
    rw [Expr.renumberArgs, Expr.delayedArgs, Expr.delayedArgs, Expr.renumberArgs,
      Expr.delayedAll_renumber hk]

theorem TypeExpr.delayed_renumber (hk : ∀ a, known' (ρ.slot a) = known a)
    (t : TypeExpr) :
    (t.renumber ρ).delayed known' = (t.delayed known).renumber ρ := by
  cases t with
  | listOf e | feature e =>
    rw [TypeExpr.renumber, TypeExpr.delayed, TypeExpr.delayed, TypeExpr.renumber,
      Expr.delayed_renumber hk]
  | object es fs =>
    rw [TypeExpr.renumber, TypeExpr.delayed, TypeExpr.delayed, TypeExpr.renumber,
      Expr.delayedAll_renumber hk, Expr.delayedFields_renumber hk]
  | _ => rfl

end

end Delayed

end Renumbering

end Comptime
