import Comptime.Code.Offer
import Comptime.Proofs.Replacing
import Comptime.Proofs.Traversal

/-! Filling in items. Code is its form with its literal items filled in, and an object is its shape
with its children filled in, so nothing else is to be known of them. Offering the literals of code
to a visitor asks for each of them once, from left to right, and fills in what comes back. -/
namespace Comptime

section Code

mutual

/-- The code with other literal items, from left to right. -/
def Code.refill : Code → List Item → Code
  | .lit _, items => .lit (items.headD .undefined)
  | .comptime a, _ => .comptime a
  | .ident name, _ => .ident name
  | .call c args, items =>
    .call (c.refill (items.take c.items.length)) (Code.refillAll args (items.drop c.items.length))
  | .member o name, items => .member (o.refill items) name
  | .index o k, items =>
    .index (o.refill (items.take o.items.length)) (k.refill (items.drop o.items.length))
  | .array es, items => .array (Code.refillAll es items)
  | .binary op l r, items =>
    .binary op (l.refill (items.take l.items.length)) (r.refill (items.drop l.items.length))
  | .lambda params body, items => .lambda params (Stmt.refillAll body items)

def Code.refillAll : List Code → List Item → List Code
  | [], _ => []
  | c :: cs, items =>
    c.refill (items.take c.items.length) :: Code.refillAll cs (items.drop c.items.length)

def Stmt.refill : Stmt → List Item → Stmt
  | .letBind name c, items => .letBind name (c.refill items)
  | .exportConst name c, items => .exportConst name (c.refill items)
  | .expr c, items => .expr (c.refill items)
  | .ret c, items => .ret (c.refill items)
  | .retVoid, _ => .retVoid

def Stmt.refillAll : List Stmt → List Item → List Stmt
  | [], _ => []
  | s :: ss, items =>
    s.refill (items.take s.items.length) :: Stmt.refillAll ss (items.drop s.items.length)

end

mutual

theorem Code.refill_items (c : Code) : c.refill c.items = c := by
  cases c with
  | lit | comptime | ident => rfl
  | call c args => simp [Code.refill, Code.items, c.refill_items, Code.refillAll_itemsAll args]
  | member o _ => simp [Code.refill, Code.items, o.refill_items]
  | index o k => simp [Code.refill, Code.items, o.refill_items, k.refill_items]
  | array es => simp [Code.refill, Code.items, Code.refillAll_itemsAll es]
  | binary _ l r => simp [Code.refill, Code.items, l.refill_items, r.refill_items]
  | lambda _ body => simp [Code.refill, Code.items, Stmt.refillAll_itemsAll body]

theorem Code.refillAll_itemsAll (cs : List Code) : Code.refillAll cs (Code.itemsAll cs) = cs := by
  cases cs with
  | nil => rfl
  | cons c cs =>
    simp [Code.refillAll, Code.itemsAll, c.refill_items, Code.refillAll_itemsAll cs]

theorem Stmt.refill_items (s : Stmt) : s.refill s.items = s := by
  cases s with
  | letBind _ c | exportConst _ c | expr c | ret c => simp [Stmt.refill, Stmt.items, c.refill_items]
  | retVoid => rfl

theorem Stmt.refillAll_itemsAll (ss : List Stmt) : Stmt.refillAll ss (Stmt.itemsAll ss) = ss := by
  cases ss with
  | nil => rfl
  | cons s ss =>
    simp [Stmt.refillAll, Stmt.itemsAll, s.refill_items, Stmt.refillAll_itemsAll ss]

end

section Forms

variable (f : Item → Item)

mutual

theorem Code.refill_mapItems (c : Code) (items : List Item) :
    (c.mapItems f).refill items = c.refill items := by
  cases c with
  | lit | comptime | ident => rfl
  | call c args =>
    simp [Code.mapItems, Code.refill, c.refill_mapItems, Code.refillAll_mapItemsAll args]
  | member o _ => simp [Code.mapItems, Code.refill, o.refill_mapItems]
  | index o k => simp [Code.mapItems, Code.refill, o.refill_mapItems, k.refill_mapItems]
  | array es => simp [Code.mapItems, Code.refill, Code.refillAll_mapItemsAll es]
  | binary _ l r => simp [Code.mapItems, Code.refill, l.refill_mapItems, r.refill_mapItems]
  | lambda _ body => simp [Code.mapItems, Code.refill, Stmt.refillAll_mapItemsAll body]

theorem Code.refillAll_mapItemsAll (cs : List Code) (items : List Item) :
    Code.refillAll (Code.mapItemsAll f cs) items = Code.refillAll cs items := by
  cases cs with
  | nil => rfl
  | cons c cs =>
    simp [Code.mapItemsAll, Code.refillAll, c.refill_mapItems, Code.refillAll_mapItemsAll cs]

theorem Stmt.refill_mapItems (s : Stmt) (items : List Item) :
    (s.mapItems f).refill items = s.refill items := by
  cases s with
  | letBind _ c | exportConst _ c | expr c | ret c =>
    simp [Stmt.mapItems, Stmt.refill, c.refill_mapItems]
  | retVoid => rfl

theorem Stmt.refillAll_mapItemsAll (ss : List Stmt) (items : List Item) :
    Stmt.refillAll (Stmt.mapItemsAll f ss) items = Stmt.refillAll ss items := by
  cases ss with
  | nil => rfl
  | cons s ss =>
    simp [Stmt.mapItemsAll, Stmt.refillAll, s.refill_mapItems, Stmt.refillAll_mapItemsAll ss]

end

end Forms

theorem Stmt.refillAll_map (f : Item → Item) (ss : List Stmt) :
    Stmt.refillAll ss ((Stmt.itemsAll ss).map f) = Stmt.mapItemsAll f ss := by
  have hitems := Stmt.refillAll_itemsAll (Stmt.mapItemsAll f ss)
  rwa [Stmt.itemsAll_mapItemsAll, Stmt.refillAll_mapItemsAll] at hitems

/-- Setting one literal is filling in the same items but for that one. -/
theorem Stmt.setItemAll_eq_refillAll (x : Item) (body : List Stmt) (n : Nat) :
    Stmt.setItemAll x body n = Stmt.refillAll body ((Stmt.itemsAll body).set n x) := by
  have hitems := Stmt.refillAll_itemsAll (Stmt.setItemAll x body n)
  rw [Stmt.itemsAll_setItemAll, ← Stmt.refillAll_mapItemsAll fun _ => .undefined,
    Stmt.mapItemsAll_setItemAll, Stmt.refillAll_mapItemsAll] at hitems
  exact hitems.symm

section Offering

variable {m : Type → Type} [Monad m] [LawfulMonad m] (visitor : Item → m (Option Item))

/-- What becomes of an item that is offered. -/
def afterOffer (x : Item) : m Item := return (← visitor x).getD x

mutual

theorem Code.offer_eq (c : Code) :
    c.offer visitor = c.refill <$> c.items.mapM (afterOffer visitor) := by
  cases c with
  | lit x => simp [Code.offer, Code.items, Code.refill, afterOffer]
  | comptime | ident => simp [Code.offer, Code.items, Code.refill]
  | call c args =>
    simp only [Code.offer, Code.items, Code.refill, c.offer_eq, Code.offerAll_eq args,
      map_eq_pure_bind, bind_assoc, pure_bind]
    exact bind_mapM_append _ _ _ _
  | member o _ => simp [Code.offer, Code.items, Code.refill, o.offer_eq]
  | index o k =>
    simp only [Code.offer, Code.items, Code.refill, o.offer_eq, k.offer_eq, map_eq_pure_bind,
      bind_assoc, pure_bind]
    exact bind_mapM_append _ _ _ _
  | array es => simp [Code.offer, Code.items, Code.refill, Code.offerAll_eq es]
  | binary _ l r =>
    simp only [Code.offer, Code.items, Code.refill, l.offer_eq, r.offer_eq, map_eq_pure_bind,
      bind_assoc, pure_bind]
    exact bind_mapM_append _ _ _ _
  | lambda _ body => simp [Code.offer, Code.items, Code.refill, Stmt.offerAll_eq body]

theorem Code.offerAll_eq (cs : List Code) :
    Code.offerAll visitor cs =
      Code.refillAll cs <$> (Code.itemsAll cs).mapM (afterOffer visitor) := by
  cases cs with
  | nil => simp [Code.offerAll, Code.itemsAll, Code.refillAll]
  | cons c cs =>
    simp only [Code.offerAll, Code.itemsAll, Code.refillAll, c.offer_eq, Code.offerAll_eq cs,
      map_eq_pure_bind, bind_assoc, pure_bind]
    exact bind_mapM_append _ _ _ _

theorem Stmt.offer_eq (s : Stmt) :
    s.offer visitor = s.refill <$> s.items.mapM (afterOffer visitor) := by
  cases s with
  | letBind _ c | exportConst _ c | expr c | ret c =>
    simp [Stmt.offer, Stmt.items, Stmt.refill, c.offer_eq]
  | retVoid => simp [Stmt.offer, Stmt.items, Stmt.refill]

/-- Offering the literals of a body asks for each once, in the order in which they are listed, and
fills in the answers. -/
theorem Stmt.offerAll_eq (ss : List Stmt) :
    Stmt.offerAll visitor ss =
      Stmt.refillAll ss <$> (Stmt.itemsAll ss).mapM (afterOffer visitor) := by
  cases ss with
  | nil => simp [Stmt.offerAll, Stmt.itemsAll, Stmt.refillAll]
  | cons s ss =>
    simp only [Stmt.offerAll, Stmt.itemsAll, Stmt.refillAll, s.offer_eq, Stmt.offerAll_eq ss,
      map_eq_pure_bind, bind_assoc, pure_bind]
    exact bind_mapM_append _ _ _ _

end

end Offering

section States

variable {σ : Type} (visitor : Item → StateM σ (Option Item))

theorem afterOffer_apply (x : Item) (s : σ) :
    afterOffer visitor x s = ((visitor x s).1.getD x, (visitor x s).2) :=
  rfl

theorem mapM_afterOffer_cons (x : Item) (items : List Item) (s : σ) :
    (x :: items).mapM (afterOffer visitor) s =
      ((afterOffer visitor x s).1 ::
          (items.mapM (afterOffer visitor) (afterOffer visitor x s).2).1,
        (items.mapM (afterOffer visitor) (afterOffer visitor x s).2).2) := by
  rw [List.mapM_cons]
  rfl

theorem Stmt.offerAll_apply (ss : List Stmt) (s : σ) :
    Stmt.offerAll visitor ss s =
      (Stmt.refillAll ss ((Stmt.itemsAll ss).mapM (afterOffer visitor) s).1,
        ((Stmt.itemsAll ss).mapM (afterOffer visitor) s).2) := by
  rw [Stmt.offerAll_eq]
  rfl

end States

end Code

section Objects

def Fields.refill (fields : Fields) (items : List Item) : Fields :=
  fields.zipWith (fun f x => (f.1, x)) items

def TypeKind.refill : TypeKind → List Item → TypeKind
  | .listOf _, items => .listOf (items.headD .undefined)
  | .feature _, items => .feature (items.headD .undefined)
  | .object features fields, items =>
    .object (items.take features.length) (fields.refill (items.drop features.length))
  | kind, _ => kind

/-- The applications with other arguments, the first ones for the first application. -/
def refillArguments : List Application → List Item → List Application
  | [], _ => []
  | a :: as, items =>
    let n := (a.args.getD []).length
    { a with args := a.args.map fun _ => items.take n } :: refillArguments as (items.drop n)

/-- The object with other items for its children, in order. -/
def Object.refill : Object → List Item → Object
  | seq _, items => seq items
  | function f, items =>
    let n := f.captures.length
    function { f with
      captures := f.captures.refill (items.take n)
      body := Stmt.refillAll f.body (items.drop n) }
  | type t, items =>
    let n := t.kind.children.length
    type ⟨t.kind.refill (items.take n), refillArguments t.applications (items.drop n)⟩
  | anchor name, _ => anchor name
  | feature name _ fields, items =>
    feature name (items.headD .undefined) (fields.refill items.tail)
  | record features fields, items =>
    let n := features.length
    record (items.take n) (fields.refill (items.drop n))

@[simp]
theorem length_blanks (items : List Item) : (blanks items).length = items.length := by
  simp [blanks]

@[simp]
theorem Fields.length_blank (fields : Fields) : fields.blank.length = fields.length := by
  simp [Fields.blank]

@[simp]
theorem length_indexed (slot : Nat → Place) (items : List Item) :
    (indexed slot items).length = items.length := by
  simp [indexed]

@[simp]
theorem length_named (label : String → Place) (fields : Fields) :
    (named label fields).length = fields.length := by
  simp [named]

@[simp]
theorem Fields.refill_blank (fields : Fields) :
    fields.blank.refill (fields.map Prod.snd) = fields := by
  simp [Fields.blank, Fields.refill, List.zipWith_map]

theorem TypeKind.length_children_shape (k : TypeKind) :
    k.shape.children.length = k.children.length := by
  cases k <;> simp [TypeKind.shape, TypeKind.children]

theorem TypeKind.refill_shape (k : TypeKind) :
    k.shape.refill (k.children.map Prod.snd) = k := by
  cases k with
  | object features fields =>
    simp [TypeKind.shape, TypeKind.refill, TypeKind.children, map_snd_indexed, map_snd_named]
  | _ => rfl

theorem refillArguments_shape (n : Nat) (as : List Application) :
    refillArguments (as.map Application.shape) ((argumentsFrom n as).map Prod.snd) = as := by
  induction as generalizing n with
  | nil => rfl
  | cons a as ih =>
    obtain ⟨site, args⟩ := a
    rw [argumentsFrom_cons, List.map_append, map_snd_indexed, List.map_cons, refillArguments]
    cases args with
    | none => simp [Application.shape, ih]
    | some args => simp [Application.shape, ih]

/-- An object is its shape with the items of its children filled in. -/
theorem Object.refill_shape (o : Object) : o.shape.refill (o.children.map Prod.snd) = o := by
  cases o with
  | seq items => simp [Object.shape, Object.refill, Object.children, map_snd_indexed]
  | function f =>
    simp [Object.shape, Object.refill, Object.children, map_snd_indexed, map_snd_named,
      Stmt.refillAll_mapItemsAll, Stmt.refillAll_itemsAll]
  | type t =>
    have hargs : refillArguments (t.applications.map Application.shape)
        (t.arguments.map Prod.snd) = t.applications := refillArguments_shape 0 t.applications
    simp [Object.shape, Object.refill, Object.children, TypeKind.length_children_shape,
      TypeKind.refill_shape, hargs]
  | anchor name => rfl
  | feature name key fields =>
    simp [Object.shape, Object.refill, Object.children, map_snd_named]
  | record features fields =>
    simp [Object.shape, Object.refill, Object.children, map_snd_indexed, map_snd_named]

/-- Objects with the same shape and the same items are the same. -/
theorem Object.eq_of_shape {o o' : Object} (hs : o.shape = o'.shape)
    (hi : o.children.map Prod.snd = o'.children.map Prod.snd) : o = o' := by
  rw [← o.refill_shape, ← o'.refill_shape, hs, hi]

end Objects

end Comptime
