import Comptime.Compile
import Comptime.Proofs.Reachability
import Comptime.Proofs.Renaming.Basic

/-! Renumbering of groups, throughout expressions, generics, objects and whole units; and units
without lazy reads. -/
namespace Comptime

/-- New ids for groups. No two groups get the same one. -/
structure Renumbering where
  group : GroupId → GroupId
  inj : Function.Injective group

namespace Renumbering

def slot (ρ : Renumbering) (a : SlotAddr) : SlotAddr := ⟨ρ.group a.group, a.slot⟩

theorem slot_inj (ρ : Renumbering) {a b : SlotAddr} (h : ρ.slot a = ρ.slot b) : a = b := by
  obtain ⟨g, i⟩ := a
  obtain ⟨k, j⟩ := b
  simp only [slot, SlotAddr.mk.injEq] at h
  rw [ρ.inj h.1, h.2]

/-- The renaming of items and code, where handles stay. -/
def items (ρ : Renumbering) : Renaming := { slot := ρ.slot }

end Renumbering

mutual

def Expr.renumber (ρ : Renumbering) : Expr → Expr
  | .lit x => .lit (x.rename ρ.items)
  | .var v => .var v
  | .slot a => .slot (ρ.slot a)
  | .lazySlot a => .lazySlot (ρ.slot a)
  | .seq es => .seq (Expr.renumberAll ρ es)
  | .record es fs => .record (Expr.renumberAll ρ es) (Expr.renumberFields ρ fs)
  | .anchor name => .anchor name
  | .feature name e fs => .feature name (e.renumber ρ) (Expr.renumberFields ρ fs)
  | .type t => .type (t.renumber ρ)
  | .apply e es => .apply (e.renumber ρ) (Expr.renumberArgs ρ es)
  | .qualify e es => .qualify (e.renumber ρ) (Expr.renumberArgs ρ es)
  | .function name params body fs =>
    .function name params (Stmt.renameAll ρ.items body) (Expr.renumberFields ρ fs)
  | .member e name => .member (e.renumber ρ) name
  | .contains e d => .contains (e.renumber ρ) (d.renumber ρ)
  | .binary op a b => .binary op (a.renumber ρ) (b.renumber ρ)

def Expr.renumberAll (ρ : Renumbering) : List Expr → List Expr
  | [] => []
  | e :: es => e.renumber ρ :: Expr.renumberAll ρ es

def Expr.renumberFields (ρ : Renumbering) : List (String × Expr) → List (String × Expr)
  | [] => []
  | (name, e) :: fs => (name, e.renumber ρ) :: Expr.renumberFields ρ fs

def Expr.renumberArgs (ρ : Renumbering) : Option (List Expr) → Option (List Expr)
  | none => none
  | some es => some (Expr.renumberAll ρ es)

def TypeExpr.renumber (ρ : Renumbering) : TypeExpr → TypeExpr
  | .missing => .missing
  | .undef => .undef
  | .null => .null
  | .bool => .bool
  | .num => .num
  | .str => .str
  | .list => .list
  | .listOf e => .listOf (e.renumber ρ)
  | .type => .type
  | .anchor => .anchor
  | .feature e => .feature (e.renumber ρ)
  | .object es fs => .object (Expr.renumberAll ρ es) (Expr.renumberFields ρ fs)
  | .generic site => .generic (GenericOf.renumber ρ site)

def GenericOf.renumber (ρ : Renumbering) : GenericOf Expr → GenericOf Expr
  | ⟨id, name, params, groups, body⟩ =>
    ⟨id, name, params, GroupOf.renumberAll ρ groups, GroupOf.renumber ρ body⟩

def GroupOf.renumber (ρ : Renumbering) : GroupOf Expr → GroupOf Expr
  | ⟨id, label, slots⟩ => ⟨ρ.group id, label, Expr.renumberAll ρ slots⟩

def GroupOf.renumberAll (ρ : Renumbering) : List (GroupOf Expr) → List (GroupOf Expr)
  | [] => []
  | g :: gs => GroupOf.renumber ρ g :: GroupOf.renumberAll ρ gs

end

mutual

/-- The expression reads no slot lazily, and its literal handles are below `n`. Both are asked of
the generics in it as well. -/
def Expr.Plain (n : Nat) : Expr → Prop
  | .lit x => x.Within (· < n)
  | .var _ | .slot _ | .anchor _ => True
  | .lazySlot _ => False
  | .seq es => Expr.PlainAll n es
  | .record es fs => Expr.PlainAll n es ∧ Expr.PlainFields n fs
  | .feature _ e fs => e.Plain n ∧ Expr.PlainFields n fs
  | .type t => t.Plain n
  | .apply e es | .qualify e es => e.Plain n ∧ Expr.PlainArgs n es
  | .function _ _ body fs =>
    (∀ x ∈ Stmt.itemsAll body, x.Within (· < n)) ∧ Expr.PlainFields n fs
  | .member e _ => e.Plain n
  | .contains e d => e.Plain n ∧ d.Plain n
  | .binary _ a b => a.Plain n ∧ b.Plain n

def Expr.PlainAll (n : Nat) : List Expr → Prop
  | [] => True
  | e :: es => e.Plain n ∧ Expr.PlainAll n es

def Expr.PlainFields (n : Nat) : List (String × Expr) → Prop
  | [] => True
  | (_, e) :: fs => e.Plain n ∧ Expr.PlainFields n fs

def Expr.PlainArgs (n : Nat) : Option (List Expr) → Prop
  | none => True
  | some es => Expr.PlainAll n es

def TypeExpr.Plain (n : Nat) : TypeExpr → Prop
  | .listOf e | .feature e => e.Plain n
  | .object es fs => Expr.PlainAll n es ∧ Expr.PlainFields n fs
  | .generic site => GenericOf.Plain n site
  | _ => True

def GenericOf.Plain (n : Nat) : GenericOf Expr → Prop
  | ⟨_, _, _, groups, body⟩ => GroupOf.PlainAll n groups ∧ GroupOf.Plain n body

def GroupOf.Plain (n : Nat) : GroupOf Expr → Prop
  | ⟨_, _, slots⟩ => Expr.PlainAll n slots

def GroupOf.PlainAll (n : Nat) : List (GroupOf Expr) → Prop
  | [] => True
  | g :: gs => GroupOf.Plain n g ∧ GroupOf.PlainAll n gs

end

/-- The renaming of objects, with new handles too. -/
def Renumbering.renaming (ρ : Renumbering) (handle : Handle → Handle) : Renaming where
  handle := handle
  slot := ρ.slot
  generic := GenericOf.renumber ρ

def Binding.renumber (ρ : Renumbering) : Binding → Binding
  | .item x => .item (x.rename ρ.items)
  | .slot a => .slot (ρ.slot a)

/-- The generics of a type are plain. -/
def TypeValue.Plain (n : Nat) (t : TypeValue) : Prop :=
  (∀ site, t.kind = .generic site → site.Plain n) ∧ ∀ a ∈ t.applications, a.site.Plain n

def Object.Plain (n : Nat) (o : Object) : Prop := ∀ t, o = .type t → t.Plain n

namespace Draft

/-- The unit with new ids for its groups, wherever they occur. -/
def renumber (ρ : Renumbering) (d : Draft) : Draft where
  name := d.name
  heap := ⟨d.heap.objects.map (Object.rename (ρ.renaming id))⟩
  groups := d.groups.map (GroupOf.renumber ρ)
  vars := d.vars.map fun b => (b.1, b.2.renumber ρ)
  program := Stmt.renameAll ρ.items d.program

/-- No slot is read lazily, and every handle names an object that is handed in. -/
structure Plain (d : Draft) : Prop where
  closed : d.heap.Closed
  objects : ∀ {h o}, d.heap.get? h = some o → o.Plain d.heap.size
  groups : ∀ {g}, g ∈ d.groups → g.Plain d.heap.size
  vars : ∀ {v x}, (v, Binding.item x) ∈ d.vars → x.Within (· < d.heap.size)
  program : ∀ {x}, x ∈ Stmt.itemsAll d.program → x.Within (· < d.heap.size)

end Draft

section

variable {n : Nat} {ρ : Renumbering}

theorem Item.within_rename {D : Handle → Prop} {x : Item} (h : x.Within D) :
    (x.rename ρ.items).Within D := by
  cases x with
  | ref k =>
    rintro _ ⟨⟩
    exact h k rfl
  | _ => exact fun _ he => nomatch he

theorem Expr.plainAll_iff {es : List Expr} : Expr.PlainAll n es ↔ ∀ e ∈ es, e.Plain n := by
  induction es with
  | nil => simp [Expr.PlainAll]
  | cons e es ih => simp [Expr.PlainAll, ih]

theorem GroupOf.plainAll_iff {gs : List Group} :
    GroupOf.PlainAll n gs ↔ ∀ g ∈ gs, GroupOf.Plain n g := by
  induction gs with
  | nil => simp [GroupOf.PlainAll]
  | cons g gs ih => simp [GroupOf.PlainAll, ih]

theorem GroupOf.Plain.slots {g : Group} (hg : g.Plain n) : Expr.PlainAll n g.slots := by
  obtain ⟨id, label, slots⟩ := g
  exact hg

theorem GenericOf.Plain.groups {site : Generic} (hs : site.Plain n) {g : Group}
    (hg : g ∈ site.groups) : g.Plain n := by
  obtain ⟨id, name, params, groups, body⟩ := site
  exact GroupOf.plainAll_iff.mp hs.1 g hg

theorem GenericOf.Plain.body {site : Generic} (hs : site.Plain n) : site.body.Plain n := by
  obtain ⟨id, name, params, groups, body⟩ := site
  exact hs.2

theorem Expr.renumberAll_eq (es : List Expr) :
    Expr.renumberAll ρ es = es.map (Expr.renumber ρ) := by
  induction es with
  | nil => rfl
  | cons e es ih => rw [Expr.renumberAll, ih, List.map_cons]

theorem GroupOf.renumberAll_eq (gs : List Group) :
    GroupOf.renumberAll ρ gs = gs.map (GroupOf.renumber ρ) := by
  induction gs with
  | nil => rfl
  | cons g gs ih => rw [GroupOf.renumberAll, ih, List.map_cons]

mutual

theorem Expr.plain_renumber {e : Expr} (h : e.Plain n) : (e.renumber ρ).Plain n := by
  cases e with
  | lit x => exact Item.within_rename h
  | var | slot | anchor => trivial
  | lazySlot a => exact h.elim
  | seq es => exact Expr.plainAll_renumber h
  | record es fs => exact ⟨Expr.plainAll_renumber h.1, Expr.plainFields_renumber h.2⟩
  | feature name e fs => exact ⟨Expr.plain_renumber h.1, Expr.plainFields_renumber h.2⟩
  | type t => exact TypeExpr.plain_renumber h
  | apply e es => exact ⟨Expr.plain_renumber h.1, Expr.plainArgs_renumber h.2⟩
  | qualify e es => exact ⟨Expr.plain_renumber h.1, Expr.plainArgs_renumber h.2⟩
  | function name params body fs =>
    refine ⟨fun x hx => ?_, Expr.plainFields_renumber h.2⟩
    rw [Stmt.itemsAll_rename] at hx
    obtain ⟨y, hy, rfl⟩ := List.mem_map.mp hx
    exact Item.within_rename (h.1 y hy)
  | member e name => exact Expr.plain_renumber (e := e) h
  | contains e d => exact ⟨Expr.plain_renumber h.1, Expr.plain_renumber h.2⟩
  | binary op a b => exact ⟨Expr.plain_renumber h.1, Expr.plain_renumber h.2⟩

theorem Expr.plainAll_renumber {es : List Expr} (h : Expr.PlainAll n es) :
    Expr.PlainAll n (Expr.renumberAll ρ es) := by
  cases es with
  | nil => trivial
  | cons e es => exact ⟨Expr.plain_renumber h.1, Expr.plainAll_renumber h.2⟩

theorem Expr.plainFields_renumber {fs : List (String × Expr)} (h : Expr.PlainFields n fs) :
    Expr.PlainFields n (Expr.renumberFields ρ fs) := by
  match fs with
  | [] => trivial
  | (name, e) :: fs => exact ⟨Expr.plain_renumber h.1, Expr.plainFields_renumber h.2⟩

theorem Expr.plainArgs_renumber {es : Option (List Expr)} (h : Expr.PlainArgs n es) :
    Expr.PlainArgs n (Expr.renumberArgs ρ es) := by
  match es with
  | none => trivial
  | some es =>
    have hes : Expr.PlainAll n es := h
    exact Expr.plainAll_renumber hes

theorem TypeExpr.plain_renumber {t : TypeExpr} (h : t.Plain n) : (t.renumber ρ).Plain n := by
  cases t with
  | listOf e | feature e => exact Expr.plain_renumber (e := e) h
  | object es fs => exact ⟨Expr.plainAll_renumber h.1, Expr.plainFields_renumber h.2⟩
  | generic site => exact GenericOf.plain_renumber h
  | _ => trivial

theorem GenericOf.plain_renumber {site : Generic} (h : site.Plain n) :
    (site.renumber ρ).Plain n := by
  match site with
  | ⟨_, _, _, groups, body⟩ => exact ⟨GroupOf.plainAll_renumber h.1, GroupOf.plain_renumber h.2⟩

theorem GroupOf.plain_renumber {g : Group} (h : g.Plain n) : (g.renumber ρ).Plain n := by
  match g with
  | ⟨_, _, slots⟩ =>
    have hs : Expr.PlainAll n slots := h
    exact Expr.plainAll_renumber hs

theorem GroupOf.plainAll_renumber {gs : List Group} (h : GroupOf.PlainAll n gs) :
    GroupOf.PlainAll n (GroupOf.renumberAll ρ gs) := by
  match gs with
  | [] => trivial
  | g :: gs => exact ⟨GroupOf.plain_renumber h.1, GroupOf.plainAll_renumber h.2⟩

end

end

end Comptime
