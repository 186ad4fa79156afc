import Comptime.Emit.Companion
import Comptime.Proofs.Lowering

/-! Writing is a traversal. The parts of a text are asked for one by one, each of them once and from
left to right, and the text is put together from the answers; so whatever can be said of the
answers, in any monad, can be said of the text. -/
namespace Comptime

section Gathering

/-- A computation in any monad with faults, over what it is given to work with. -/
abbrev Routine (E : (Type → Type) → Type) (α : Type) :=
  (m : Type → Type) → [Monad m] → [MonadLiftT (Except Fault) m] → E m → m α

variable {E : (Type → Type) → Type} {Q A α β γ : Type}

/-- The routine asks these questions, each of them once and in order, and does nothing else but put
its result together from the answers. -/
def Gathers (ask : Q → Routine E A) (qs : List Q) (run : Routine E α) : Prop :=
  ∃ fill : List A → α, ∀ (m : Type → Type) [Monad m] [LawfulMonad m] [MonadLiftT (Except Fault) m]
    (e : E m), run m e = fill <$> qs.mapM fun q => ask q m e

theorem mapM_congr {m : Type → Type} [Monad m] [LawfulMonad m] {f g : Q → m A} {qs : List Q}
    (h : ∀ q ∈ qs, f q = g q) : qs.mapM f = qs.mapM g := by
  induction qs with
  | nil => simp
  | cons q qs ih =>
    rw [List.forall_mem_cons] at h
    rw [List.mapM_cons, List.mapM_cons, h.1, ih h.2]

theorem mapM_liftM {m : Type → Type} [Monad m] [LawfulMonad m] [MonadLiftT (Except Fault) m]
    [LawfulMonadLiftT (Except Fault) m] (f : Q → Except Fault A) (qs : List Q) :
    (qs.mapM fun q => (liftM (f q) : m A)) = liftM (qs.mapM f) := by
  induction qs with
  | nil => simp
  | cons q qs ih => simp [List.mapM_cons, ih]

/-- Two lists of questions are asked as one. -/
theorem bind_mapM_append {m : Type → Type} [Monad m] [LawfulMonad m] (f : Q → m A) (ps qs : List Q)
    (k : List A → List A → m β) :
    (ps.mapM f >>= fun as => qs.mapM f >>= fun bs => k as bs) =
      (ps ++ qs).mapM f >>= fun cs => k (cs.take ps.length) (cs.drop ps.length) := by
  induction ps generalizing k with
  | nil => simp
  | cons p ps ih =>
    simp only [List.cons_append, List.mapM_cons, bind_assoc, pure_bind]
    exact bind_congr fun a => ih fun as bs => k (a :: as) bs

namespace Gathers

variable {ask : Q → Routine E A} {ps qs : List Q} {r : Routine E α} {s : Routine E β}

theorem pure (a : α) : Gathers ask [] fun _ _ _ _ => Pure.pure a :=
  ⟨fun _ => a, fun _ _ _ _ _ => by simp⟩

theorem one [Inhabited A] (q : Q) : Gathers ask [q] (ask q) :=
  ⟨fun as => as.headD default, fun _ _ _ _ _ => by simp⟩

theorem map (hr : Gathers ask qs r) (g : α → β) :
    Gathers ask qs fun m _ _ e => r m e >>= fun a => Pure.pure (g a) := by
  obtain ⟨fill, h⟩ := hr
  exact ⟨fun as => g (fill as), fun m _ _ _ e => by simp [h]⟩

theorem both (hr : Gathers ask ps r) (hs : Gathers ask qs s) (g : α → β → γ) :
    Gathers ask (ps ++ qs) fun m _ _ e =>
      r m e >>= fun a => s m e >>= fun b => Pure.pure (g a b) := by
  obtain ⟨fill, hr⟩ := hr
  obtain ⟨fill', hs⟩ := hs
  refine ⟨fun as => g (fill (as.take ps.length)) (fill' (as.drop ps.length)), fun m _ _ _ e => ?_⟩
  have h := bind_mapM_append (fun q => ask q m e) ps qs fun as bs =>
    Pure.pure (g (fill as) (fill' bs))
  simpa [hr, hs] using h

theorem of_eq {r' : Routine E α} (hr : Gathers ask qs r)
    (h : ∀ (m : Type → Type) [Monad m] [LawfulMonad m] [MonadLiftT (Except Fault) m] (e : E m),
      r' m e = r m e) : Gathers ask qs r' := by
  obtain ⟨fill, hr⟩ := hr
  exact ⟨fill, fun m _ _ _ e => (h m e).trans (hr m e)⟩

/-- The routines of a list, one after the other. -/
theorem each {part : β → List Q} {run : β → Routine E α} (h : ∀ b, Gathers ask (part b) (run b))
    (bs : List β) : Gathers ask (bs.flatMap part) fun m _ _ e => bs.mapM fun b => run b m e := by
  induction bs with
  | nil => exact (pure []).of_eq fun m _ _ _ e => List.mapM_nil
  | cons b bs ih => exact ((h b).both ih List.cons).of_eq fun m _ _ _ e => List.mapM_cons

/-- The routine in another setting, in which its questions are put in other words. -/
theorem within {E' : (Type → Type) → Type} {R : Type} {ask' : R → Routine E' A}
    (hr : Gathers ask qs r)
    (setting : (m : Type → Type) → [Monad m] → [MonadLiftT (Except Fault) m] → E' m → E m)
    (word : Q → R)
    (h : ∀ q m [Monad m] [MonadLiftT (Except Fault) m] (e : E' m),
      ask q m (setting m e) = ask' (word q) m e) :
    Gathers ask' (qs.map word) fun m _ _ e => r m (setting m e) := by
  obtain ⟨fill, hr⟩ := hr
  exact ⟨fill, fun m _ _ _ e => by simp [hr, h, List.mapM_map, Function.comp_def]⟩

/-- Equal answers give equal results. -/
theorem congr (hr : Gathers ask qs r) {m : Type → Type} [Monad m] [LawfulMonad m]
    [MonadLiftT (Except Fault) m] (e e' : E m) (h : ∀ q ∈ qs, ask q m e = ask q m e') :
    r m e = r m e' := by
  obtain ⟨fill, hr⟩ := hr
  rw [hr, hr, mapM_congr h]

/-- Answers that can only fail give a result that can only fail, whatever else the monad is good
for. -/
theorem lift (hr : Gathers ask qs r) {m : Type → Type} [Monad m] [LawfulMonad m]
    [MonadLiftT (Except Fault) m] [LawfulMonadLiftT (Except Fault) m] (e : E m)
    (e' : E (Except Fault)) (h : ∀ q ∈ qs, ask q m e = liftM (ask q (Except Fault) e')) :
    r m e = liftM (r (Except Fault) e') := by
  obtain ⟨fill, hr⟩ := hr
  rw [hr, hr, mapM_congr h, mapM_liftM, liftM_map]

end Gathers

end Gathering

/-- A part of run-time code that is left to its writer. -/
inductive Leaf
  | item (item : Item)
  | free (name : String)
  | slot (addr : SlotAddr)

namespace Leaf

def write (l : Leaf) : Routine Writer String := fun _ _ _ w =>
  match l with
  | item x => w.item x
  | free name => w.free name
  | slot a => w.comptime a

def item? : Leaf → Option Item
  | item x => some x
  | _ => none

def slot? : Leaf → Option SlotAddr
  | slot a => some a
  | _ => none

end Leaf

mutual

/-- The leaves of a piece of code, from left to right. -/
def Code.leaves : Scope → Code → List Leaf
  | _, .lit x => [.item x]
  | _, .comptime a => [.slot a]
  | scope, .ident name => if name ∈ scope then [] else [.free name]
  | scope, .call c args => c.leaves scope ++ Code.leavesAll scope args
  | scope, .member o _ => o.leaves scope
  | scope, .index o k => o.leaves scope ++ k.leaves scope
  | scope, .array es => Code.leavesAll scope es
  | scope, .binary _ l r => l.leaves scope ++ r.leaves scope
  | scope, .lambda params body => Stmt.leavesAll (bindings body ++ (params ++ scope)) body

def Code.leavesAll : Scope → List Code → List Leaf
  | _, [] => []
  | scope, c :: cs => c.leaves scope ++ Code.leavesAll scope cs

def Stmt.leaves : Scope → Stmt → List Leaf
  | scope, .letBind _ c | scope, .exportConst _ c | scope, .expr c | scope, .ret c => c.leaves scope
  | _, .retVoid => []

def Stmt.leavesAll : Scope → List Stmt → List Leaf
  | _, [] => []
  | scope, s :: ss => s.leaves scope ++ Stmt.leavesAll scope ss

end

mutual

theorem Code.parts_leaves (c : Code) (scope : Scope) :
    (c.leaves scope).filterMap Leaf.item? = c.items ∧
      (c.leaves scope).filterMap Leaf.slot? = c.slots := by
  cases c with
  | lit | comptime => exact ⟨rfl, rfl⟩
  | ident name =>
    simp only [Code.leaves]
    split <;> exact ⟨rfl, rfl⟩
  | call c args =>
    simp [Code.leaves, Code.items, Code.slots, c.parts_leaves scope,
      Code.parts_leavesAll args scope]
  | member o _ => exact o.parts_leaves scope
  | index o k =>
    simp [Code.leaves, Code.items, Code.slots, o.parts_leaves scope, k.parts_leaves scope]
  | array es => exact Code.parts_leavesAll es scope
  | binary _ l r =>
    simp [Code.leaves, Code.items, Code.slots, l.parts_leaves scope, r.parts_leaves scope]
  | lambda _ body => exact Stmt.parts_leavesAll body _

theorem Code.parts_leavesAll (cs : List Code) (scope : Scope) :
    (Code.leavesAll scope cs).filterMap Leaf.item? = Code.itemsAll cs ∧
      (Code.leavesAll scope cs).filterMap Leaf.slot? = Code.slotsAll cs := by
  cases cs with
  | nil => exact ⟨rfl, rfl⟩
  | cons c cs =>
    simp [Code.leavesAll, Code.itemsAll, Code.slotsAll, c.parts_leaves scope,
      Code.parts_leavesAll cs scope]

theorem Stmt.parts_leaves (s : Stmt) (scope : Scope) :
    (s.leaves scope).filterMap Leaf.item? = s.items ∧
      (s.leaves scope).filterMap Leaf.slot? = s.slots := by
  cases s with
  | letBind _ c | exportConst _ c | expr c | ret c => exact c.parts_leaves scope
  | retVoid => exact ⟨rfl, rfl⟩

/-- The leaves hold the items and the slots of the code, and the names that nothing binds. -/
theorem Stmt.parts_leavesAll (ss : List Stmt) (scope : Scope) :
    (Stmt.leavesAll scope ss).filterMap Leaf.item? = Stmt.itemsAll ss ∧
      (Stmt.leavesAll scope ss).filterMap Leaf.slot? = Stmt.slotsAll ss := by
  cases ss with
  | nil => exact ⟨rfl, rfl⟩
  | cons s ss =>
    simp [Stmt.leavesAll, Stmt.itemsAll, Stmt.slotsAll, s.parts_leaves scope,
      Stmt.parts_leavesAll ss scope]

end

theorem Stmt.mem_itemsAll_of_leaf {ss : List Stmt} {scope : Scope} {x : Item}
    (h : .item x ∈ Stmt.leavesAll scope ss) : x ∈ Stmt.itemsAll ss := by
  rw [← (Stmt.parts_leavesAll ss scope).1]
  exact List.mem_filterMap.mpr ⟨_, h, rfl⟩

theorem Stmt.mem_slotsAll_of_leaf {ss : List Stmt} {scope : Scope} {a : SlotAddr}
    (h : .slot a ∈ Stmt.leavesAll scope ss) : a ∈ Stmt.slotsAll ss := by
  rw [← (Stmt.parts_leavesAll ss scope).2]
  exact List.mem_filterMap.mpr ⟨_, h, rfl⟩

mutual

theorem Code.gathers_render (c : Code) (scope : Scope) :
    Gathers Leaf.write (c.leaves scope) fun _ _ _ w => c.render w scope := by
  cases c with
  | lit x => exact .one (Leaf.item x)
  | comptime a => exact .one (Leaf.slot a)
  | ident name =>
    simp only [Code.leaves, Code.render]
    split
    · exact .pure name
    · exact .one (Leaf.free name)
  | call c args => exact (c.gathers_render scope).both (Code.gathers_renderAll args scope) _
  | member o name => exact (o.gathers_render scope).map _
  | index o k => exact (o.gathers_render scope).both (k.gathers_render scope) _
  | array es => exact (Code.gathers_renderAll es scope).map _
  | binary op l r => exact (l.gathers_render scope).both (r.gathers_render scope) _
  | lambda params body => exact (Stmt.gathers_renderAll body _).map _

theorem Code.gathers_renderAll (cs : List Code) (scope : Scope) :
    Gathers Leaf.write (Code.leavesAll scope cs) fun _ _ _ w => Code.renderAll w scope cs := by
  cases cs with
  | nil => exact .pure []
  | cons c cs => exact (c.gathers_render scope).both (Code.gathers_renderAll cs scope) _

theorem Stmt.gathers_render (s : Stmt) (scope : Scope) :
    Gathers Leaf.write (s.leaves scope) fun _ _ _ w => s.render w scope := by
  cases s with
  | letBind _ c | exportConst _ c | expr c | ret c => exact (c.gathers_render scope).map _
  | retVoid => exact .pure _

theorem Stmt.gathers_renderAll (ss : List Stmt) (scope : Scope) :
    Gathers Leaf.write (Stmt.leavesAll scope ss) fun _ _ _ w => Stmt.renderAll w scope ss := by
  cases ss with
  | nil => exact .pure []
  | cons s ss => exact (s.gathers_render scope).both (Stmt.gathers_renderAll ss scope) _

end

theorem gathers_renderProgram (p : Program) :
    Gathers Leaf.write (Stmt.leavesAll (bindings p ++ []) p) fun _ _ _ w => renderProgram w p :=
  (Stmt.gathers_renderAll p _).map _

/-- The leaf as a function with these captures leaves it to its writer. -/
def Leaf.captured (captures : Fields) : Leaf → Leaf
  | .free name =>
    match captures.lookup name with
    | some x => .item x
    | none => .free name
  | l => l

/-- The leaves of a function. A captured item is one wherever its name stands. -/
def Closure.leaves (f : Closure) : List Leaf :=
  (Stmt.leavesAll (bindings f.body ++ f.locals) f.body).map (Leaf.captured f.captures)

theorem Leaf.write_capturing {m : Type → Type} [Monad m] [MonadLiftT (Except Fault) m]
    (w : Writer m) (captures : Fields) (l : Leaf) :
    l.write m (w.capturing captures) = (l.captured captures).write m w := by
  cases l with
  | item | slot => rfl
  | free name =>
    simp only [write, captured, Writer.capturing]
    cases captures.lookup name <;> rfl

theorem Closure.gathers_render (f : Closure) :
    Gathers Leaf.write f.leaves fun _ _ _ w => f.render w := by
  have hlines : Gathers Leaf.write f.leaves fun _ _ _ w =>
      renderBlock (w.capturing f.captures) f.locals f.body :=
    (Stmt.gathers_renderAll f.body _).within (fun _ _ _ w => w.capturing f.captures) _
      fun l _ _ _ w => l.write_capturing w f.captures
  refine (hlines.map fun lines =>
    if lines.isEmpty then f.header ++ " \x7b\x7d"
    else f.header ++ " \x7b " ++ " ".intercalate lines ++ " \x7d").of_eq fun m _ _ _ w => ?_
  refine bind_congr fun lines => ?_
  split <;> rfl

/-- The parts of an object that are left to a writer. -/
def Object.leaves : Object → List Leaf
  | .function f => f.leaves
  | o => (o.children.map Prod.snd).map .item

/-- An object asks for items that it holds. -/
theorem Object.mem_items_of_leaf {o : Object} {x : Item} (h : .item x ∈ o.leaves) :
    x ∈ o.children.map Prod.snd := by
  cases o with
  | function f =>
    rw [Object.children, List.map_append, map_snd_named, map_snd_indexed, List.mem_append]
    obtain ⟨l, hl, he⟩ := List.mem_map.mp h
    cases l with
    | item =>
      cases he
      exact Or.inr (Stmt.mem_itemsAll_of_leaf hl)
    | slot => cases he
    | free name =>
      simp only [Leaf.captured] at he
      split at he
      · rename_i y hy
        cases he
        obtain ⟨pre, post, hc, -⟩ := List.lookup_eq_some_iff.mp hy
        exact Or.inl (by simp [hc])
      · cases he
  | seq | type | anchor | feature | record =>
    obtain ⟨y, hy, he⟩ := List.mem_map.mp h
    cases he
    exact hy

/-- The slots that the code of an object refers to. -/
def Object.slots : Object → List SlotAddr
  | .function f => Stmt.slotsAll f.body
  | _ => []

theorem Object.slot_mem_leaves {o : Object} {a : SlotAddr} : .slot a ∈ o.leaves ↔ a ∈ o.slots := by
  cases o with
  | function f =>
    rw [Object.slots, ← (Stmt.parts_leavesAll f.body (bindings f.body ++ f.locals)).2]
    simp only [Object.leaves, Closure.leaves, List.mem_map, List.mem_filterMap]
    refine exists_congr fun l => and_congr_right fun _ => ?_
    cases l with
    | item | slot => simp [Leaf.captured, Leaf.slot?]
    | free name =>
      simp only [Leaf.captured, Leaf.slot?]
      cases f.captures.lookup name <;> simp
  | seq | type | anchor | feature | record => simp [Object.leaves, Object.slots]

namespace Output

variable {out : Output} {h : Handle} {o : Object}

/-- What definitions are written with. -/
structure Definer (m : Type → Type) where
  define : String → Handle → m (List Piece)
  item : Item → m String

/-- Asks for a child of the object at `path`. -/
def askChild (out : Output) (path : String) (c : Child) : Routine Definer (List Piece) :=
  fun _ _ _ e => out.child e.define path c

section Define

variable {path : String}

theorem gathers_children (cs : List Child) :
    Gathers (out.askChild path) cs fun _ _ _ e => out.children e.define path cs :=
  ⟨id, fun _ _ _ _ _ => (id_map _).symm⟩

theorem gathers_entries (place : String → Place) (fields : Fields) :
    Gathers (out.askChild path) (named place fields) fun _ _ _ e =>
      out.entries e.define path place fields := by
  have hfield (f : String × Item) : Gathers (out.askChild path) [(place f.1, f.2)]
      fun _ _ _ e => do
        let value ← out.child e.define path (place f.1, f.2)
        return Piece.entry (propertyKey f.1) value := (Gathers.one _).map _
  rw [named, List.map_eq_flatMap]
  exact .each hfield fields

theorem gathers_kindEntries (kind : TypeKind) :
    Gathers (out.askChild path) kind.children fun _ _ _ e =>
      out.kindEntries e.define path kind := by
  cases kind with
  | listOf element | feature key => exact (Gathers.one _).map _
  | object features fields =>
    exact (gathers_children _).both (gathers_entries _ fields) _
  | _ => exact .pure _

theorem gathers_application (a : Application) (i : Nat) :
    Gathers (out.askChild path) (indexed (.argument i) (a.args.getD [])) fun _ _ _ e =>
      out.application e.define path a i := by
  unfold application
  cases a.args with
  | some args => exact (gathers_children _).map _
  | none => exact .pure _

theorem gathers_typeLiteral (t : TypeValue) :
    Gathers (out.askChild path) (t.kind.children ++ t.arguments) fun _ _ _ e =>
      out.typeLiteral e.define path t :=
  (gathers_kindEntries t.kind).both
    (.each (fun p : Application × Nat => gathers_application p.1 p.2) t.applications.zipIdx) _

theorem gathers_recordLiteral (features : List Item) (fields : Fields) :
    Gathers (out.askChild path) (indexed .feature features ++ named .field fields) fun _ _ _ e =>
      out.recordLiteral e.define path features fields :=
  (gathers_children _).both (gathers_entries _ fields) _

theorem gathers_featureLiteral (name : String) (key : Item) (fields : Fields) :
    Gathers (out.askChild path) ((.featureAnchor, key) :: named .featureField fields)
      fun _ _ _ e => out.featureLiteral e.define path name key fields :=
  (Gathers.one (.featureAnchor, key)).both (gathers_entries _ fields) _

/-- A definition asks for the children of the object. That of a function asks for its leaves, and
is not built of children. -/
theorem gathers_defineWith (ho : out.heap.get? h = some o) (hf : ∀ f, o ≠ .function f) :
    Gathers (out.askChild path) o.children fun _ _ _ e =>
      out.defineWith e.define path e.item h := by
  unfold defineWith
  rw [ho]
  cases o with
  | seq items => exact (gathers_children _).map _
  | function f => exact absurd rfl (hf f)
  | type t => exact gathers_typeLiteral t
  | anchor name => exact .pure _
  | feature name key fields => exact gathers_featureLiteral name key fields
  | record features fields => exact gathers_recordLiteral features fields

end Define

/-- Asks for a leaf of an object that is written in place. -/
def askLeaf (out : Output) (l : Leaf) : Routine (fun m => Handle → m String) String :=
  fun m _ _ expand => l.write m (plainWriter (out.spell expand))

/-- In place an object asks for its leaves. -/
theorem gathers_expandWith (ho : out.heap.get? h = some o) (hi : o.isInlinable) :
    Gathers out.askLeaf o.leaves fun _ _ _ expand => out.expandWith expand h := by
  unfold expandWith
  rw [ho]
  cases o with
  | seq items =>
    have hitem (x : Item) : Gathers out.askLeaf [.item x] fun _ _ _ expand => out.spell expand x :=
      .one (Leaf.item x)
    have h := Gathers.each hitem items
    rw [← List.map_eq_flatMap] at h
    simp only [Object.leaves, Object.children, map_snd_indexed]
    exact h.map _
  | function f =>
    have hf : Gathers out.askLeaf (f.leaves.map id) fun _ _ _ expand =>
        f.render (plainWriter (out.spell expand)) :=
      f.gathers_render.within (fun _ _ _ expand => plainWriter (out.spell expand)) id
        fun _ _ _ _ _ => rfl
    rwa [List.map_id] at hf
  | type | anchor | feature | record => cases hi

end Output

section Uses

variable {heap : Heap} {h k : Handle} {o : Object} {x : Item}

/-- The items whose texts are part of the text of an object, in order. What a function captures
counts as often as the function mentions it. -/
def Heap.uses (heap : Heap) (h : Handle) : List Item :=
  (heap.get? h).elim [] fun o => o.leaves.filterMap Leaf.item?

theorem Heap.mem_uses (ho : heap.get? h = some o) : x ∈ heap.uses h ↔ .item x ∈ o.leaves := by
  rw [Heap.uses, ho, Option.elim_some, List.mem_filterMap]
  constructor
  · rintro ⟨l, hl, he⟩
    cases l with
    | item y =>
      cases he
      exact hl
    | free | slot => cases he
  · exact fun hx => ⟨_, hx, rfl⟩

theorem Heap.mem_items_of_use (hx : x ∈ heap.uses h) : x ∈ heap.items h := by
  cases ho : heap.get? h with
  | none => simp [Heap.uses, ho] at hx
  | some o => exact Heap.items_of_get? ho ▸ Object.mem_items_of_leaf ((Heap.mem_uses ho).mp hx)

theorem uses_of_function {f : Closure} (hf : heap.get? h = some (.function f)) :
    heap.uses h = f.leaves.filterMap Leaf.item? := by
  rw [Heap.uses, hf]
  rfl

/-- An object that is no function uses what it holds. -/
theorem uses_of_not_function (ho : heap.get? h = some o) (hf : ∀ f, o ≠ .function f) :
    heap.uses h = o.children.map Prod.snd := by
  rw [Heap.uses, ho]
  cases o with
  | function f => exact absurd rfl (hf f)
  | seq | type | anchor | feature | record =>
    simp only [Option.elim_some, Object.leaves, List.filterMap_map]
    exact congrFun List.filterMap_eq_map _

/-- The slots that a stored function refers to. -/
def Heap.slots (heap : Heap) (h : Handle) : List SlotAddr := (heap.get? h).elim [] Object.slots

theorem Heap.slots_of_get? (ho : heap.get? h = some o) : heap.slots h = o.slots := by
  simp [Heap.slots, ho]

theorem Heap.exists_function_of_slot {a : SlotAddr} (ha : a ∈ heap.slots h) :
    ∃ f, heap.get? h = some (.function f) ∧ a ∈ Stmt.slotsAll f.body := by
  cases ho : heap.get? h with
  | none => simp [Heap.slots, ho] at ha
  | some o =>
    rw [Heap.slots_of_get? ho] at ha
    cases o with
    | function f => exact ⟨f, rfl, ha⟩
    | seq | type | anchor | feature | record => cases ha

namespace Tracker

/-- The objects among these items that have no binding. -/
def unnamed (t : Tracker) (items : List Item) : List Handle :=
  (refsOf items).filter fun k => !t.isTracked k

/-- The objects whose texts are part of the text of an object. -/
def inlined (heap : Heap) (t : Tracker) (h : Handle) : List Handle := t.unnamed (heap.uses h)

variable {t : Tracker}

theorem mem_unnamed {items : List Item} :
    k ∈ t.unnamed items ↔ .ref k ∈ items ∧ t.isTracked k = false := by
  simp [unnamed, mem_refsOf]

end Tracker

end Uses

namespace Output

variable {out : Output} {h : Handle} {x : Item}

section Lifting

variable {m : Type → Type} [Monad m] [LawfulMonad m] [MonadLiftT (Except Fault) m]
  [LawfulMonadLiftT (Except Fault) m] {f : Handle → m String} {g : Handle → Except Fault String}

theorem spell_lift (hx : ∀ k, x = .ref k → out.tracker.isTracked k = false → f k = liftM (g k)) :
    out.spell f x = liftM (out.spell g x) := by
  cases x with
  | ref k =>
    simp only [spell]
    cases hid : out.tracker.id? k with
    | some id => exact (liftM_pure _).symm
    | none => exact hx k rfl (by simp [Tracker.isTracked, hid])
  | _ => simp [spell]

/-- The text of an object is made of the texts of the objects inside it, and of faults. -/
theorem expandWith_lift_of_inlined
    (hf : ∀ o, out.heap.get? h = some o → o.isInlinable →
      ∀ k ∈ Tracker.inlined out.heap out.tracker h, f k = liftM (g k)) :
    out.expandWith f h = liftM (out.expandWith g h) := by
  cases ho : out.heap.get? h with
  | none =>
    simp only [expandWith, ho]
    rfl
  | some o =>
    cases hi : o.isInlinable with
    | false =>
      cases o with
      | seq | function => cases hi
      | type | anchor | feature | record =>
        simp only [expandWith, ho]
        rfl
    | true =>
      refine (gathers_expandWith ho hi).lift f g fun l hl => ?_
      cases l with
      | item x =>
        have huse := (Heap.mem_uses ho).mpr hl
        exact spell_lift fun k he hn => hf o ho hi k (Tracker.mem_unnamed.mpr ⟨he ▸ huse, hn⟩)
      | free name => exact (liftM_pure _).symm
      | slot a => rfl

end Lifting

section Deferred

variable (out)

/-- The companion's own recursion is that of objects in place. -/
theorem convertWithin_eq_spell (depth : Nat) :
    out.convertWithin depth =
      out.spell fun k => (liftM (out.expandWithin depth k) : Assembling String) := by
  induction depth with
  | zero =>
    funext x
    cases x with
    | ref h =>
      simp only [convertWithin, spell]
      cases out.tracker.id? h <;> rfl
    | _ => rfl
  | succ depth ih =>
    funext x
    cases x with
    | ref h =>
      simp only [convertWithin, spell]
      cases out.tracker.id? h with
      | some id => rfl
      | none =>
        rw [expandWithin, ← expandWith_lift_of_inlined fun _ _ _ _ _ => rfl, expandWith, ← ih]
        cases out.heap.get? h with
        | none => rfl
        | some o => cases o <;> rfl
    | _ => rfl

theorem convert_eq_liftM (x : Item) : out.convert x = liftM (out.inline x) := by
  rw [convert, convertWithin_eq_spell]
  exact spell_lift fun _ _ _ => rfl

/-- Neither does it look at what is bound, nor does it leave a patch. -/
theorem run_convert (x : Item) (d : Assembly) :
    (out.convert x).run.run d = (out.inline x, d) := by
  rw [convert_eq_liftM]
  rfl

theorem run_render_convert (f : Closure) (d : Assembly) :
    (f.render (plainWriter out.convert)).run.run d = (f.render out.writer, d) := by
  have hlift : f.render (plainWriter out.convert) = liftM (f.render out.writer) := by
    refine f.gathers_render.lift _ _ fun l _ => ?_
    cases l with
    | item x => exact out.convert_eq_liftM x
    | free name => exact (liftM_pure _).symm
    | slot a => rfl
  rw [hlift]
  rfl

theorem deferred_eq : out.deferred = out.inline := by
  funext x
  rw [deferred, run_convert]

theorem defineWithin_succ_eq (depth : Nat) (path : String) (h : Handle) :
    out.defineWithin (depth + 1) path h =
      out.defineWith (out.defineWithin depth) path out.inline h := by
  rw [defineWithin, deferred_eq]

end Deferred

end Output

end Comptime
