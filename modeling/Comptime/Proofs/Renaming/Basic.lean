import Comptime.Place

/-! Renaming of handles, slots and generics, throughout items, code and objects. -/
namespace Comptime

/-- New names for handles, slots and generics. -/
structure Renaming where
  handle : Handle → Handle := id
  slot : SlotAddr → SlotAddr := id
  generic : Generic → Generic := id

def Placeholder.rename (r : Renaming) : Placeholder → Placeholder
  | .slot a => .slot (r.slot a)
  | .var v => .var v

def Item.rename (r : Renaming) : Item → Item
  | ref h => ref (r.handle h)
  | hole p => hole (p.rename r)
  | x => x

mutual

def Code.rename (r : Renaming) : Code → Code
  | .lit x => .lit (x.rename r)
  | .comptime a => .comptime (r.slot a)
  | .ident name => .ident name
  | .call c args => .call (c.rename r) (Code.renameAll r args)
  | .member o name => .member (o.rename r) name
  | .index o k => .index (o.rename r) (k.rename r)
  | .array es => .array (Code.renameAll r es)
  | .binary op a b => .binary op (a.rename r) (b.rename r)
  | .lambda params body => .lambda params (Stmt.renameAll r body)

def Code.renameAll (r : Renaming) : List Code → List Code
  | [] => []
  | c :: cs => c.rename r :: Code.renameAll r cs

def Stmt.rename (r : Renaming) : Stmt → Stmt
  | .letBind name c => .letBind name (c.rename r)
  | .exportConst name c => .exportConst name (c.rename r)
  | .expr c => .expr (c.rename r)
  | .ret c => .ret (c.rename r)
  | .retVoid => .retVoid

def Stmt.renameAll (r : Renaming) : List Stmt → List Stmt
  | [] => []
  | s :: ss => s.rename r :: Stmt.renameAll r ss

end

def Fields.rename (r : Renaming) (fields : Fields) : Fields :=
  fields.map fun f => (f.1, f.2.rename r)

def Application.rename (r : Renaming) (a : Application) : Application :=
  ⟨r.generic a.site, a.args.map (List.map (Item.rename r))⟩

def TypeKind.rename (r : Renaming) : TypeKind → TypeKind
  | .listOf element => .listOf (element.rename r)
  | .feature key => .feature (key.rename r)
  | .object features fields => .object (features.map (Item.rename r)) (Fields.rename r fields)
  | .generic site => .generic (r.generic site)
  | k => k

def TypeValue.rename (r : Renaming) (t : TypeValue) : TypeValue :=
  ⟨t.kind.rename r, t.applications.map (Application.rename r)⟩

def Closure.rename (r : Renaming) (f : Closure) : Closure :=
  { f with body := Stmt.renameAll r f.body, captures := Fields.rename r f.captures }

namespace Object

def rename (r : Renaming) : Object → Object
  | seq items => seq (items.map (Item.rename r))
  | function f => function (f.rename r)
  | type t => type (t.rename r)
  | anchor name => anchor name
  | feature name key fields => feature name (key.rename r) (Fields.rename r fields)
  | record features fields => record (features.map (Item.rename r)) (Fields.rename r fields)

end Object

/-- A child with its item renamed; it stays in its place. -/
def Child.rename (r : Renaming) (c : Child) : Child := (c.1, c.2.rename r)

variable {r : Renaming}

theorem Item.isUnknown_rename (x : Item) : (x.rename r).isUnknown = x.isUnknown := by
  cases x <;> rfl

theorem refsOf_rename (items : List Item) :
    refsOf (items.map (Item.rename r)) = (refsOf items).map r.handle := by
  induction items with
  | nil => rfl
  | cons x xs ih =>
    have hx : (x.rename r).ref? = x.ref?.map r.handle := by cases x <;> rfl
    simp only [refsOf, List.map_cons, List.filterMap_cons, hx] at ih ⊢
    cases x.ref? <;> simp [ih]

/-- The item refers only to handles in `D`. -/
def Item.Within (D : Handle → Prop) (x : Item) : Prop := ∀ h, x = .ref h → D h

theorem within_of_refsOf {D : Handle → Prop} {items : List Item} (hd : ∀ h ∈ refsOf items, D h)
    {x : Item} (hx : x ∈ items) : x.Within D := by
  rintro h rfl
  exact hd h (List.mem_filterMap.mpr ⟨_, hx, rfl⟩)

theorem lookup_rename (name : String) (fields : Fields) :
    (Fields.rename r fields).lookup name = (fields.lookup name).map (Item.rename r) := by
  induction fields with
  | nil => rfl
  | cons f fields ih =>
    obtain ⟨key, x⟩ := f
    simp only [Fields.rename, List.map_cons, List.lookup_cons] at ih ⊢
    cases name == key
    · exact ih
    · rfl

mutual

@[simp]
theorem Code.items_rename (c : Code) : (c.rename r).items = c.items.map (Item.rename r) := by
  cases c with
  | lit | comptime | ident => rfl
  | call c args => simp [Code.rename, Code.items, c.items_rename, Code.itemsAll_rename args]
  | member o _ => exact o.items_rename
  | index o k => simp [Code.rename, Code.items, o.items_rename, k.items_rename]
  | array es => exact Code.itemsAll_rename es
  | binary _ a b => simp [Code.rename, Code.items, a.items_rename, b.items_rename]
  | lambda _ body => exact Stmt.itemsAll_rename body

@[simp]
theorem Code.itemsAll_rename (cs : List Code) :
    Code.itemsAll (Code.renameAll r cs) = (Code.itemsAll cs).map (Item.rename r) := by
  cases cs with
  | nil => rfl
  | cons c cs => simp [Code.renameAll, Code.itemsAll, c.items_rename, Code.itemsAll_rename cs]

@[simp]
theorem Stmt.items_rename (s : Stmt) : (s.rename r).items = s.items.map (Item.rename r) := by
  cases s with
  | letBind _ c | exportConst _ c | expr c | ret c => exact c.items_rename
  | retVoid => rfl

@[simp]
theorem Stmt.itemsAll_rename (ss : List Stmt) :
    Stmt.itemsAll (Stmt.renameAll r ss) = (Stmt.itemsAll ss).map (Item.rename r) := by
  cases ss with
  | nil => rfl
  | cons s ss => simp [Stmt.renameAll, Stmt.itemsAll, s.items_rename, Stmt.itemsAll_rename ss]

end

theorem indexed_rename (place : Nat → Place) (items : List Item) :
    indexed place (items.map (Item.rename r)) = (indexed place items).map (Child.rename r) := by
  simp [indexed, List.zipIdx_map, Child.rename, Function.comp_def]

theorem named_rename (place : String → Place) (fields : Fields) :
    named place (Fields.rename r fields) = (named place fields).map (Child.rename r) := by
  simp [named, Fields.rename, Child.rename, Function.comp_def]

theorem TypeKind.children_rename (k : TypeKind) :
    (k.rename r).children = k.children.map (Child.rename r) := by
  cases k <;> simp [TypeKind.rename, TypeKind.children, Child.rename, indexed_rename, named_rename]

theorem TypeValue.arguments_rename (t : TypeValue) :
    (t.rename r).arguments = t.arguments.map (Child.rename r) := by
  simp only [TypeValue.arguments, TypeValue.rename, List.zipIdx_map, List.flatMap_map,
    List.map_flatMap]
  congr 1
  funext p
  cases hargs : p.1.args <;> simp [Application.rename, hargs, ← indexed_rename]

/-- Renaming keeps the places of the children. -/
theorem Object.children_rename (o : Object) :
    (o.rename r).children = o.children.map (Child.rename r) := by
  cases o with
  | seq items => exact indexed_rename ..
  | function f =>
    simp [Object.rename, Closure.rename, Object.children, indexed_rename, named_rename]
  | type t =>
    simp [Object.rename, TypeValue.rename, Object.children, TypeKind.children_rename,
      ← TypeValue.arguments_rename]
  | anchor name => rfl
  | feature name key fields =>
    simp [Object.rename, Object.children, named_rename, Child.rename]
  | record features fields => simp [Object.rename, Object.children, indexed_rename, named_rename]

@[simp]
theorem Object.isInlinable_rename (o : Object) : (o.rename r).isInlinable = o.isInlinable := by
  cases o <;> rfl

/-! Renaming by identities changes nothing. -/

@[simp]
theorem Item.rename_id : Item.rename {} = id := by
  funext x
  cases x with
  | hole p => cases p <;> rfl
  | _ => rfl

@[simp]
theorem Fields.rename_id (fields : Fields) : Fields.rename {} fields = fields := by
  simp [Fields.rename]

mutual

@[simp]
theorem Code.rename_id (c : Code) : c.rename {} = c := by
  cases c with
  | lit x => simp [Code.rename]
  | comptime | ident => rfl
  | call c args => simp [Code.rename, c.rename_id, Code.renameAll_id args]
  | member o _ => simp [Code.rename, o.rename_id]
  | index o k => simp [Code.rename, o.rename_id, k.rename_id]
  | array es => simp [Code.rename, Code.renameAll_id es]
  | binary _ a b => simp [Code.rename, a.rename_id, b.rename_id]
  | lambda _ body => simp [Code.rename, Stmt.renameAll_id body]

@[simp]
theorem Code.renameAll_id (cs : List Code) : Code.renameAll {} cs = cs := by
  cases cs with
  | nil => rfl
  | cons c cs => simp [Code.renameAll, c.rename_id, Code.renameAll_id cs]

@[simp]
theorem Stmt.rename_id (s : Stmt) : s.rename {} = s := by
  cases s with
  | letBind _ c | exportConst _ c | expr c | ret c => simp [Stmt.rename, c.rename_id]
  | retVoid => rfl

@[simp]
theorem Stmt.renameAll_id (ss : List Stmt) : Stmt.renameAll {} ss = ss := by
  cases ss with
  | nil => rfl
  | cons s ss => simp [Stmt.renameAll, s.rename_id, Stmt.renameAll_id ss]

end

@[simp]
theorem Application.rename_id : Application.rename {} = id := by
  funext a
  obtain ⟨site, args⟩ := a
  cases args <;> simp [Application.rename]

@[simp]
theorem TypeValue.rename_id (t : TypeValue) : t.rename {} = t := by
  obtain ⟨kind, applications⟩ := t
  have hk : kind.rename {} = kind := by cases kind <;> simp [TypeKind.rename]
  simp [TypeValue.rename, hk]

@[simp]
theorem Object.rename_id (o : Object) : o.rename {} = o := by
  cases o <;> simp [Object.rename, Closure.rename]

/-! Renamings that agree on the items of something rename it alike. -/

section Agreement

variable {r' : Renaming}

theorem Item.rename_congr {x : Item} (hh : ∀ h, x = .ref h → r.handle h = r'.handle h)
    (hs : r.slot = r'.slot) : x.rename r = x.rename r' := by
  cases x with
  | ref h => exact congrArg Item.ref (hh h rfl)
  | hole p =>
    cases p with
    | slot a => exact congrArg (fun f => Item.hole (.slot (f a))) hs
    | var v => rfl
  | _ => rfl

mutual

theorem Code.rename_congr {c : Code} (hi : ∀ x ∈ c.items, x.rename r = x.rename r')
    (hs : r.slot = r'.slot) : c.rename r = c.rename r' := by
  cases c with
  | lit x => exact congrArg Code.lit (hi x (List.mem_singleton_self x))
  | comptime a => exact congrArg (fun f => Code.comptime (f a)) hs
  | ident name => rfl
  | call c args =>
    simp only [Code.items, List.forall_mem_append] at hi
    rw [Code.rename, Code.rename, Code.rename_congr hi.1 hs, Code.renameAll_congr hi.2 hs]
  | member o name => exact congrArg (Code.member · name) (Code.rename_congr (c := o) hi hs)
  | index o k =>
    simp only [Code.items, List.forall_mem_append] at hi
    rw [Code.rename, Code.rename, Code.rename_congr hi.1 hs, Code.rename_congr hi.2 hs]
  | array es => exact congrArg Code.array (Code.renameAll_congr hi hs)
  | binary op a b =>
    simp only [Code.items, List.forall_mem_append] at hi
    rw [Code.rename, Code.rename, Code.rename_congr hi.1 hs, Code.rename_congr hi.2 hs]
  | lambda params body => exact congrArg (Code.lambda params) (Stmt.renameAll_congr hi hs)

theorem Code.renameAll_congr {cs : List Code}
    (hi : ∀ x ∈ Code.itemsAll cs, x.rename r = x.rename r') (hs : r.slot = r'.slot) :
    Code.renameAll r cs = Code.renameAll r' cs := by
  cases cs with
  | nil => rfl
  | cons c cs =>
    simp only [Code.itemsAll, List.forall_mem_append] at hi
    rw [Code.renameAll, Code.renameAll, Code.rename_congr hi.1 hs, Code.renameAll_congr hi.2 hs]

theorem Stmt.rename_congr {s : Stmt} (hi : ∀ x ∈ s.items, x.rename r = x.rename r')
    (hs : r.slot = r'.slot) : s.rename r = s.rename r' := by
  cases s with
  | letBind name c => exact congrArg (Stmt.letBind name) (Code.rename_congr (c := c) hi hs)
  | exportConst name c => exact congrArg (Stmt.exportConst name) (Code.rename_congr (c := c) hi hs)
  | expr c => exact congrArg Stmt.expr (Code.rename_congr (c := c) hi hs)
  | ret c => exact congrArg Stmt.ret (Code.rename_congr (c := c) hi hs)
  | retVoid => rfl

theorem Stmt.renameAll_congr {ss : List Stmt}
    (hi : ∀ x ∈ Stmt.itemsAll ss, x.rename r = x.rename r') (hs : r.slot = r'.slot) :
    Stmt.renameAll r ss = Stmt.renameAll r' ss := by
  cases ss with
  | nil => rfl
  | cons s ss =>
    simp only [Stmt.itemsAll, List.forall_mem_append] at hi
    rw [Stmt.renameAll, Stmt.renameAll, Stmt.rename_congr hi.1 hs, Stmt.renameAll_congr hi.2 hs]

end

theorem mem_indexed_items {place : Nat → Place} {items : List Item} {x : Item} :
    x ∈ (indexed place items).map Prod.snd ↔ x ∈ items := by
  rw [map_snd_indexed]

theorem mem_named_items {place : String → Place} {fields : Fields} {x : Item} :
    x ∈ (named place fields).map Prod.snd ↔ x ∈ fields.map Prod.snd := by
  rw [map_snd_named]

theorem Fields.rename_congr {fields : Fields}
    (hi : ∀ x ∈ fields.map Prod.snd, x.rename r = x.rename r') :
    Fields.rename r fields = Fields.rename r' fields :=
  List.map_congr_left fun f hf => by rw [hi f.2 (List.mem_map_of_mem hf)]

theorem TypeKind.rename_congr {k : TypeKind}
    (hi : ∀ x ∈ k.children.map Prod.snd, x.rename r = x.rename r')
    (hg : r.generic = r'.generic) : k.rename r = k.rename r' := by
  cases k with
  | listOf element => exact congrArg TypeKind.listOf (hi element (by simp [TypeKind.children]))
  | feature key => exact congrArg TypeKind.feature (hi key (by simp [TypeKind.children]))
  | object features fields =>
    simp only [TypeKind.children, List.map_append, List.forall_mem_append] at hi
    have hfeatures : features.map (Item.rename r) = features.map (Item.rename r') :=
      List.map_congr_left fun x hx => hi.1 x (mem_indexed_items.mpr hx)
    have hfields := Fields.rename_congr fun x hx => hi.2 x (mem_named_items.mpr hx)
    rw [TypeKind.rename, TypeKind.rename, hfeatures, hfields]
  | generic site => exact congrArg (fun f => TypeKind.generic (f site)) hg
  | _ => rfl

theorem TypeValue.rename_congr {t : TypeValue}
    (hi : ∀ x ∈ (Object.type t).children.map Prod.snd, x.rename r = x.rename r')
    (hg : r.generic = r'.generic) : t.rename r = t.rename r' := by
  simp only [Object.children, List.map_append, List.forall_mem_append] at hi
  have happs : t.applications.map (Application.rename r) =
      t.applications.map (Application.rename r') := by
    refine List.map_congr_left fun a ha => ?_
    obtain ⟨site, args⟩ := a
    have hargs : args.map (List.map (Item.rename r)) = args.map (List.map (Item.rename r')) := by
      cases args with
      | none => rfl
      | some xs =>
        refine congrArg some (List.map_congr_left fun x hx => hi.2 x ?_)
        obtain ⟨i, hlt, hia⟩ := List.mem_iff_getElem.mp ha
        simp only [TypeValue.arguments, List.map_flatMap, List.mem_flatMap]
        refine ⟨(⟨site, some xs⟩, i), ?_, mem_indexed_items.mpr hx⟩
        rw [List.mem_zipIdx_iff_getElem?]
        simp [hlt, hia]
    rw [Application.rename, Application.rename, hg, hargs]
  rw [TypeValue.rename, TypeValue.rename, TypeKind.rename_congr hi.1 hg, happs]

theorem Object.rename_congr {o : Object}
    (hi : ∀ x ∈ o.children.map Prod.snd, x.rename r = x.rename r') (hs : r.slot = r'.slot)
    (hg : r.generic = r'.generic) : o.rename r = o.rename r' := by
  cases o with
  | seq items =>
    exact congrArg Object.seq (List.map_congr_left fun x hx => hi x (mem_indexed_items.mpr hx))
  | function f =>
    simp only [Object.children, List.map_append, List.forall_mem_append] at hi
    have hbody := Stmt.renameAll_congr (fun x hx => hi.2 x (mem_indexed_items.mpr hx)) hs
    have hcaptures := Fields.rename_congr fun x hx => hi.1 x (mem_named_items.mpr hx)
    rw [Object.rename, Object.rename, Closure.rename, Closure.rename, hbody, hcaptures]
  | type t => exact congrArg Object.type (TypeValue.rename_congr hi hg)
  | anchor name => rfl
  | feature name key fields =>
    simp only [Object.children, List.map_cons, List.forall_mem_cons] at hi
    have hfields := Fields.rename_congr fun x hx => hi.2 x (mem_named_items.mpr hx)
    rw [Object.rename, Object.rename, hi.1, hfields]
  | record features fields =>
    simp only [Object.children, List.map_append, List.forall_mem_append] at hi
    have hfeatures : features.map (Item.rename r) = features.map (Item.rename r') :=
      List.map_congr_left fun x hx => hi.1 x (mem_indexed_items.mpr hx)
    have hfields := Fields.rename_congr fun x hx => hi.2 x (mem_named_items.mpr hx)
    rw [Object.rename, Object.rename, hfeatures, hfields]

end Agreement

end Comptime
