import Comptime.Expr

/-! The expressions that an expression is made of. -/
namespace Comptime

mutual

/-- The expression and those that are evaluated as parts of it. If `deep`, the expressions of the
generics in it are listed as well, which are evaluated only when such a generic is specialized. -/
def Expr.parts (deep : Bool) : Expr → List Expr
  | .lit x => [.lit x]
  | .var v => [.var v]
  | .slot a => [.slot a]
  | .lazySlot a => [.lazySlot a]
  | .seq es => .seq es :: Expr.partsAll deep es
  | .record es fs => .record es fs :: (Expr.partsAll deep es ++ Expr.partsFields deep fs)
  | .anchor name => [.anchor name]
  | .feature name e fs => .feature name e fs :: (e.parts deep ++ Expr.partsFields deep fs)
  | .type t => .type t :: t.parts deep
  | .apply e es => .apply e es :: (Expr.partsArgs deep es ++ e.parts deep)
  | .qualify e es => .qualify e es :: (Expr.partsArgs deep es ++ e.parts deep)
  | .function name params body fs => .function name params body fs :: Expr.partsFields deep fs
  | .member e name => .member e name :: e.parts deep
  | .contains e d => .contains e d :: (e.parts deep ++ d.parts deep)
  | .binary op a b => .binary op a b :: (a.parts deep ++ b.parts deep)

def Expr.partsAll (deep : Bool) : List Expr → List Expr
  | [] => []
  | e :: es => e.parts deep ++ Expr.partsAll deep es

def Expr.partsFields (deep : Bool) : List (String × Expr) → List Expr
  | [] => []
  | (_, e) :: fs => e.parts deep ++ Expr.partsFields deep fs

def Expr.partsArgs (deep : Bool) : Option (List Expr) → List Expr
  | none => []
  | some es => Expr.partsAll deep es

def TypeExpr.parts (deep : Bool) : TypeExpr → List Expr
  | .listOf e | .feature e => e.parts deep
  | .object es fs => Expr.partsAll deep es ++ Expr.partsFields deep fs
  | .generic site => if deep then GenericOf.parts deep site else []
  | _ => []

def GenericOf.parts (deep : Bool) : GenericOf Expr → List Expr
  | ⟨_, _, _, groups, body⟩ => GroupOf.partsAll deep groups ++ GroupOf.parts deep body

def GroupOf.parts (deep : Bool) : GroupOf Expr → List Expr
  | ⟨_, _, slots⟩ => Expr.partsAll deep slots

def GroupOf.partsAll (deep : Bool) : List (GroupOf Expr) → List Expr
  | [] => []
  | g :: gs => GroupOf.parts deep g ++ GroupOf.partsAll deep gs

end

/-- All of these parts are allowed. -/
def Admits (allows : Expr → Prop) (parts : List Expr) : Prop := ∀ p ∈ parts, allows p

section Admits

variable {allows : Expr → Prop} {p : Expr} {parts more : List Expr}

@[simp]
theorem admits_nil : Admits allows [] := List.forall_mem_nil _

@[simp]
theorem admits_cons : Admits allows (p :: parts) ↔ allows p ∧ Admits allows parts :=
  List.forall_mem_cons

@[simp]
theorem admits_append :
    Admits allows (parts ++ more) ↔ Admits allows parts ∧ Admits allows more :=
  List.forall_mem_append

end Admits

variable {deep : Bool} {p : Expr}

theorem Expr.mem_partsAll {es : List Expr} :
    p ∈ Expr.partsAll deep es ↔ ∃ e ∈ es, p ∈ e.parts deep := by
  induction es with
  | nil => simp [Expr.partsAll]
  | cons e es ih => simp [Expr.partsAll, ih]

theorem GroupOf.mem_parts {g : GroupOf Expr} :
    p ∈ GroupOf.parts deep g ↔ ∃ e ∈ g.slots, p ∈ e.parts deep := by
  obtain ⟨id, label, slots⟩ := g
  exact Expr.mem_partsAll

theorem GenericOf.mem_parts {site : GenericOf Expr} :
    p ∈ GenericOf.parts deep site ↔
      (∃ g ∈ site.groups, p ∈ GroupOf.parts deep g) ∨ p ∈ GroupOf.parts deep site.body := by
  have hall : ∀ gs : List (GroupOf Expr),
      p ∈ GroupOf.partsAll deep gs ↔ ∃ g ∈ gs, p ∈ GroupOf.parts deep g := by
    intro gs
    induction gs with
    | nil => simp [GroupOf.partsAll]
    | cons g gs ih => simp [GroupOf.partsAll, ih]
  obtain ⟨id, name, params, groups, body⟩ := site
  rw [GenericOf.parts, List.mem_append, hall]

theorem Expr.mem_parts_self (e : Expr) : e ∈ e.parts deep := by
  cases e <;> exact List.mem_cons_self

/-! The parts of a part are parts, and in the same order. -/

mutual

theorem Expr.parts_sublist {e : Expr} (hp : p ∈ e.parts deep) :
    (p.parts true).Sublist (e.parts true) := by
  cases e with
  | lit | var | slot | lazySlot | anchor =>
    cases List.mem_singleton.mp hp
    exact .refl _
  | seq es =>
    rcases List.mem_cons.mp hp with rfl | hp
    · exact .refl _
    · exact (Expr.partsAll_sublist hp).cons _
  | record es fs =>
    rcases List.mem_cons.mp hp with rfl | hp
    · exact .refl _
    · rcases List.mem_append.mp hp with hp | hp
      · exact ((Expr.partsAll_sublist hp).trans (List.sublist_append_left _ _)).cons _
      · exact ((Expr.partsFields_sublist hp).trans (List.sublist_append_right _ _)).cons _
  | feature name e fs =>
    rcases List.mem_cons.mp hp with rfl | hp
    · exact .refl _
    · rcases List.mem_append.mp hp with hp | hp
      · exact ((Expr.parts_sublist hp).trans (List.sublist_append_left _ _)).cons _
      · exact ((Expr.partsFields_sublist hp).trans (List.sublist_append_right _ _)).cons _
  | type t =>
    rcases List.mem_cons.mp hp with rfl | hp
    · exact .refl _
    · exact (TypeExpr.parts_sublist hp).cons _
  | apply e es | qualify e es =>
    rcases List.mem_cons.mp hp with rfl | hp
    · exact .refl _
    · rcases List.mem_append.mp hp with hp | hp
      · exact ((Expr.partsArgs_sublist hp).trans (List.sublist_append_left _ _)).cons _
      · exact ((Expr.parts_sublist hp).trans (List.sublist_append_right _ _)).cons _
  | function name params body fs =>
    rcases List.mem_cons.mp hp with rfl | hp
    · exact .refl _
    · exact (Expr.partsFields_sublist hp).cons _
  | member e name =>
    rcases List.mem_cons.mp hp with rfl | hp
    · exact .refl _
    · exact (Expr.parts_sublist hp).cons _
  | contains a b | binary _ a b =>
    rcases List.mem_cons.mp hp with rfl | hp
    · exact .refl _
    · rcases List.mem_append.mp hp with hp | hp
      · exact ((Expr.parts_sublist hp).trans (List.sublist_append_left _ _)).cons _
      · exact ((Expr.parts_sublist hp).trans (List.sublist_append_right _ _)).cons _

theorem Expr.partsAll_sublist {es : List Expr} (hp : p ∈ Expr.partsAll deep es) :
    (p.parts true).Sublist (Expr.partsAll true es) := by
  cases es with
  | nil => cases hp
  | cons e es =>
    rcases List.mem_append.mp hp with hp | hp
    · exact (Expr.parts_sublist hp).trans (List.sublist_append_left _ _)
    · exact (Expr.partsAll_sublist hp).trans (List.sublist_append_right _ _)

theorem Expr.partsFields_sublist {fs : List (String × Expr)}
    (hp : p ∈ Expr.partsFields deep fs) :
    (p.parts true).Sublist (Expr.partsFields true fs) := by
  match fs with
  | [] => cases hp
  | (_, e) :: fs =>
    rcases List.mem_append.mp hp with hp | hp
    · exact (Expr.parts_sublist hp).trans (List.sublist_append_left _ _)
    · exact (Expr.partsFields_sublist hp).trans (List.sublist_append_right _ _)

theorem Expr.partsArgs_sublist {es : Option (List Expr)} (hp : p ∈ Expr.partsArgs deep es) :
    (p.parts true).Sublist (Expr.partsArgs true es) := by
  match es with
  | none => cases hp
  | some es => exact Expr.partsAll_sublist hp

theorem TypeExpr.parts_sublist {t : TypeExpr} (hp : p ∈ t.parts deep) :
    (p.parts true).Sublist (t.parts true) := by
  cases t with
  | listOf e | feature e => exact Expr.parts_sublist hp
  | object es fs =>
    rcases List.mem_append.mp hp with hp | hp
    · exact (Expr.partsAll_sublist hp).trans (List.sublist_append_left _ _)
    · exact (Expr.partsFields_sublist hp).trans (List.sublist_append_right _ _)
  | generic site =>
    rw [TypeExpr.parts] at hp
    split at hp
    · exact GenericOf.parts_sublist hp
    · cases hp
  | _ => cases hp

theorem GenericOf.parts_sublist {site : GenericOf Expr} (hp : p ∈ GenericOf.parts deep site) :
    (p.parts true).Sublist (GenericOf.parts true site) := by
  match site with
  | ⟨_, _, _, groups, body⟩ =>
    rcases List.mem_append.mp hp with hp | hp
    · exact (GroupOf.partsAll_sublist hp).trans (List.sublist_append_left _ _)
    · exact (GroupOf.parts_sublist hp).trans (List.sublist_append_right _ _)

theorem GroupOf.parts_sublist {g : GroupOf Expr} (hp : p ∈ GroupOf.parts deep g) :
    (p.parts true).Sublist (GroupOf.parts true g) := by
  match g with
  | ⟨_, _, slots⟩ => exact Expr.partsAll_sublist hp

theorem GroupOf.partsAll_sublist {gs : List (GroupOf Expr)}
    (hp : p ∈ GroupOf.partsAll deep gs) :
    (p.parts true).Sublist (GroupOf.partsAll true gs) := by
  cases gs with
  | nil => cases hp
  | cons g gs =>
    rcases List.mem_append.mp hp with hp | hp
    · exact (GroupOf.parts_sublist hp).trans (List.sublist_append_left _ _)
    · exact (GroupOf.partsAll_sublist hp).trans (List.sublist_append_right _ _)

end

/-- A generic in an expression brings its own parts, and the expression has one more. -/
theorem Expr.generic_sublist {e : Expr} {site : GenericOf Expr}
    (hp : .type (.generic site) ∈ e.parts deep) :
    (.type (.generic site) :: GenericOf.parts true site).Sublist (e.parts true) := by
  have h := Expr.parts_sublist hp
  rwa [Expr.parts, TypeExpr.parts, if_pos rfl] at h

end Comptime
