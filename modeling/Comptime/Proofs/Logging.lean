import Comptime.Emit.Modules
import Comptime.Proofs.Edges
import Comptime.Proofs.Traversal

/-! Emission with a log. The same steps run in a monad that notes each object whose text they begin;
the modules stay as they are, and the log lists the objects that are written, each of them followed
by those inside it. -/
namespace Comptime

/-- Computations that note handles. -/
abbrev Logged := StateT (List Handle) (Except Fault)

namespace Output

variable (out : Output)

def note (h : Handle) : Logged Unit := modify (· ++ [h])

def expandLogged : Nat → Handle → Logged String
  | 0, _ => liftM (throw .tooDeep : Except Fault String)
  | depth + 1, h => do
    note h
    out.expandWith (expandLogged depth) h

def inlineLogged (item : Item) : Logged String := out.spell (out.expandLogged out.depth) item

def defineLogged : Nat → String → Handle → Logged (List Piece)
  | 0, _, _ => liftM (throw .tooDeep : Except Fault (List Piece))
  | depth + 1, path, h => do
    note h
    out.defineWith (defineLogged depth) path out.inlineLogged h

def companionLogged : Logged (List String × List String) :=
  out.bindAll (fun h => out.defineLogged out.depth (out.binding h) h) {} out.order

end Output

/-- Emission that notes every object it writes. -/
def emitLogged (program : Program) (heap : Heap) (tracker : Tracker) (names : Naming) :
    Logged Modules :=
  emitWith program tracker names (plainWriter (primaryOutput heap tracker names).inlineLogged)
    (joinCompanion (companionOutput heap tracker names).companionLogged)

namespace Tracker

variable {heap : Heap} {t : Tracker}

/-- The second list names the objects that are written when those of the first are, each of them
followed by what is written inside it. None of them refers to a slot. -/
inductive Written (heap : Heap) (t : Tracker) : List Handle → List Handle → Prop
  | nil : Written heap t [] []
  | cons {h : Handle} {hs inner rest : List Handle} : heap.slots h = [] →
    Written heap t (inlined heap t h) inner → Written heap t hs rest →
    Written heap t (h :: hs) (h :: inner ++ rest)

variable {hs ks log log' : List Handle}

theorem Written.append (hl : Written heap t hs log) (hl' : Written heap t ks log') :
    Written heap t (hs ++ ks) (log ++ log') := by
  induction hl with
  | nil => exact hl'
  | @cons h hs inner rest hslots hi _ _ ih =>
    have h := Written.cons hslots hi ih
    rwa [← List.append_assoc] at h

/-- Nothing is written that refers to a slot. -/
theorem Written.slots (hl : Written heap t hs log) : ∀ h ∈ log, heap.slots h = [] := by
  induction hl with
  | nil => exact List.forall_mem_nil _
  | @cons h hs inner rest hslots _ _ ihi ihr =>
    exact List.forall_mem_append.mpr ⟨List.forall_mem_cons.mpr ⟨hslots, ihi⟩, ihr⟩

theorem unnamed_append (xs ys : List Item) :
    t.unnamed (xs ++ ys) = t.unnamed xs ++ t.unnamed ys := by
  simp [unnamed, refsOf]

theorem unnamed_filterMap {α : Type} (f : α → Option Item) (as : List α) :
    t.unnamed (as.filterMap f) = as.flatMap fun a => t.unnamed (f a).toList := by
  induction as with
  | nil => rfl
  | cons a as ih =>
    rw [List.filterMap_cons, List.flatMap_cons, ← ih]
    cases f a with
    | none => rfl
    | some x => exact unnamed_append [x] _

end Tracker

open Tracker (Written inlined)

variable {α β : Type} {heap : Heap} {t : Tracker} {hs ks : List Handle} {h : Handle} {x : Item}

/-- If the computation succeeds, so does the logged one with the same result, and it notes what is
written when these objects are. -/
def Notes (heap : Heap) (t : Tracker) (hs : List Handle) (x : Logged α) (y : Except Fault α) :
    Prop :=
  ∀ a, y = .ok a → ∃ log, Written heap t hs log ∧ ∀ s, x.run s = .ok (a, s ++ log)

theorem Notes.pure (a : α) : Notes heap t [] (Pure.pure a) (Pure.pure a) := by
  intro b hb
  obtain rfl := pure_eq_ok.mp hb
  exact ⟨[], .nil, fun s => by rw [List.append_nil]; rfl⟩

theorem notes_lift (y : Except Fault α) : Notes heap t [] (liftM y) y := by
  intro a ha
  subst ha
  exact ⟨[], .nil, fun s => by rw [List.append_nil]; rfl⟩

theorem notes_throw (e : Fault) (x : Logged α) : Notes heap t hs x (throw e) :=
  fun _ ha => nomatch ha

namespace Notes

variable {x : Logged α} {y : Except Fault α}

theorem bind {f : α → Logged β} {g : α → Except Fault β} (hx : Notes heap t hs x y)
    (hf : ∀ a, Notes heap t ks (f a) (g a)) : Notes heap t (hs ++ ks) (x >>= f) (y >>= g) := by
  intro b hb
  obtain ⟨a, ha, hb⟩ := bind_eq_ok.mp hb
  obtain ⟨log, hw, hrun⟩ := hx a ha
  obtain ⟨log', hw', hrun'⟩ := hf a b hb
  refine ⟨log ++ log', hw.append hw', fun s => ?_⟩
  rw [StateT.run_bind, hrun s, ← List.append_assoc]
  exact hrun' (s ++ log)

theorem map (hx : Notes heap t hs x y) (f : α → β) :
    Notes heap t hs (f <$> x) (f <$> y) := by
  rw [map_eq_pure_bind, map_eq_pure_bind, ← List.append_nil hs]
  exact hx.bind fun a => .pure (f a)

theorem mapM {f : α → Logged β} {g : α → Except Fault β} {part : α → List Handle} {as : List α}
    (h : ∀ a ∈ as, Notes heap t (part a) (f a) (g a)) :
    Notes heap t (as.flatMap part) (as.mapM f) (as.mapM g) := by
  induction as with
  | nil => exact .pure []
  | cons a as ih =>
    rw [List.forall_mem_cons] at h
    rw [List.mapM_cons, List.mapM_cons, List.flatMap_cons]
    exact h.1.bind fun b => (ih h.2).map (b :: ·)

/-- An object is noted before the objects in its text. -/
theorem noting (hx : Notes heap t (inlined heap t h) x y)
    (hslots : ∀ a, y = .ok a → heap.slots h = []) :
    Notes heap t [h] (Output.note h >>= fun _ => x) y := by
  intro a ha
  obtain ⟨log, hw, hrun⟩ := hx a ha
  refine ⟨h :: log, by simpa using Written.cons (hslots a ha) hw .nil, fun s => ?_⟩
  rw [List.append_cons]
  exact hrun (s ++ [h])

end Notes

theorem Gathers.notes {E : (Type → Type) → Type} {Q A : Type} {ask : Q → Routine E A} {qs : List Q}
    {r : Routine E α} (hr : Gathers ask qs r) {part : Q → List Handle} (e : E Logged)
    (e' : E (Except Fault))
    (h : ∀ q ∈ qs, Notes heap t (part q) (ask q Logged e) (ask q (Except Fault) e')) :
    Notes heap t (qs.flatMap part) (r Logged e) (r (Except Fault) e') := by
  obtain ⟨fill, hr⟩ := hr
  rw [hr, hr]
  exact (Notes.mapM h).map fill

theorem Leaf.notes_write {f : Item → Logged String} {g : Item → Except Fault String}
    (hf : ∀ x, Notes heap t (t.unnamed [x]) (f x) (g x)) (l : Leaf) :
    Notes heap t (t.unnamed l.item?.toList) (l.write _ (plainWriter f))
      (l.write _ (plainWriter g)) := by
  cases l with
  | item x => exact hf x
  | free name => exact .pure name
  | slot a => exact notes_throw _ _

theorem mapM_ok {f : α → Except Fault β} {as : List α} {bs : List β} (h : as.mapM f = .ok bs) :
    ∀ a ∈ as, ∃ b, f a = .ok b := by
  induction as generalizing bs with
  | nil => exact List.forall_mem_nil _
  | cons a as ih =>
    obtain ⟨b, cs, hb, hcs, -⟩ := mapM_cons_eq_ok.mp h
    exact List.forall_mem_cons.mpr ⟨⟨b, hb⟩, ih hcs⟩

/-- A traversal that succeeds has all its questions answered. -/
theorem Gathers.answered {E : (Type → Type) → Type} {Q A : Type} {ask : Q → Routine E A}
    {qs : List Q} {r : Routine E α} (hr : Gathers ask qs r) {e : E (Except Fault)} {a : α}
    (h : r _ e = .ok a) : ∀ q ∈ qs, ∃ b, ask q _ e = .ok b := by
  obtain ⟨fill, hr⟩ := hr
  rw [hr, map_eq_pure_bind] at h
  obtain ⟨as, has, -⟩ := bind_eq_ok.mp h
  exact mapM_ok has

/-- A function is written only if it refers to no slot. -/
theorem Closure.slots_of_render {f : Closure} {item : Item → Except Fault String} {s : String}
    (h : f.render (plainWriter item) = .ok s) : Stmt.slotsAll f.body = [] := by
  refine List.eq_nil_iff_forall_not_mem.mpr fun a ha => ?_
  have hleaf := (Object.slot_mem_leaves (o := .function f)).mpr ha
  obtain ⟨s', hs'⟩ := f.gathers_render.answered h _ hleaf
  cases hs'

namespace Output

variable {out : Output}

theorem slots_of_expandWith {g : Handle → Except Fault String} {s : String}
    (hs : out.expandWith g h = .ok s) : out.heap.slots h = [] := by
  refine List.eq_nil_iff_forall_not_mem.mpr fun a ha => ?_
  obtain ⟨f, hf, ha⟩ := Heap.exists_function_of_slot ha
  simp only [expandWith, hf] at hs
  rw [Closure.slots_of_render hs] at ha
  cases ha

theorem slots_of_defineWith {g : String → Handle → Except Fault (List Piece)}
    {item : Item → Except Fault String} {path : String} {ps : List Piece}
    (hs : out.defineWith g path item h = .ok ps) : out.heap.slots h = [] := by
  refine List.eq_nil_iff_forall_not_mem.mpr fun a ha => ?_
  obtain ⟨f, hf, ha⟩ := Heap.exists_function_of_slot ha
  simp only [defineWith, hf] at hs
  obtain ⟨s, hs, -⟩ := bind_eq_ok.mp hs
  rw [Closure.slots_of_render hs] at ha
  cases ha

theorem notes_spell {f : Handle → Logged String} {g : Handle → Except Fault String}
    (hf : ∀ k, Notes out.heap out.tracker [k] (f k) (g k)) :
    Notes out.heap out.tracker (out.tracker.unnamed [x]) (out.spell f x) (out.spell g x) := by
  cases x with
  | ref k =>
    simp only [spell]
    cases hid : out.tracker.id? k with
    | some id =>
      simpa [Tracker.unnamed, refsOf, Item.ref?, Tracker.isTracked, hid] using Notes.pure _
    | none => simpa [Tracker.unnamed, refsOf, Item.ref?, Tracker.isTracked, hid] using hf k
  | _ => exact (notes_lift _).bind fun _ => .pure _

/-- In place, the objects in the text of an object are noted. -/
theorem notes_expandWith {f : Handle → Logged String} {g : Handle → Except Fault String}
    (hf : ∀ k, Notes out.heap out.tracker [k] (f k) (g k)) :
    Notes out.heap out.tracker (inlined out.heap out.tracker h) (out.expandWith f h)
      (out.expandWith g h) := by
  cases ho : out.heap.get? h with
  | none =>
    simp only [expandWith, ho]
    exact notes_throw _ _
  | some o =>
    cases hi : o.isInlinable with
    | false =>
      cases o with
      | seq | function => cases hi
      | type | anchor | feature | record =>
        simp only [expandWith, ho]
        exact notes_throw _ _
    | true =>
      have huses : out.heap.uses h = o.leaves.filterMap Leaf.item? := by simp [Heap.uses, ho]
      rw [inlined, huses, Tracker.unnamed_filterMap]
      exact (gathers_expandWith ho hi).notes f g fun l _ =>
        l.notes_write fun x => notes_spell hf

theorem notes_expandWithin (depth : Nat) (h : Handle) :
    Notes out.heap out.tracker [h] (out.expandLogged depth h) (out.expandWithin depth h) := by
  induction depth generalizing h with
  | zero => exact notes_throw _ _
  | succ depth ih => exact (notes_expandWith ih).noting fun _ hs => slots_of_expandWith hs

theorem notes_inline (x : Item) :
    Notes out.heap out.tracker (out.tracker.unnamed [x]) (out.inlineLogged x) (out.inline x) :=
  notes_spell (notes_expandWithin out.depth)

theorem notes_child {f : String → Handle → Logged (List Piece)}
    {g : String → Handle → Except Fault (List Piece)}
    (hf : ∀ path k, Notes out.heap out.tracker [k] (f path k) (g path k)) (path : String)
    (c : Child) :
    Notes out.heap out.tracker (out.tracker.unnamed [c.2]) (out.child f path c)
      (out.child g path c) := by
  obtain ⟨place, x⟩ := c
  cases x with
  | ref k =>
    simp only [child]
    cases hk : out.tracker.isTracked k with
    | true => simpa [Tracker.unnamed, refsOf, Item.ref?, hk] using Notes.pure _
    | false => simpa [Tracker.unnamed, refsOf, Item.ref?, hk] using hf _ k
  | _ => exact (notes_lift _).bind fun _ => .pure _

theorem notes_defineWith {f : String → Handle → Logged (List Piece)}
    {g : String → Handle → Except Fault (List Piece)}
    (hf : ∀ path k, Notes out.heap out.tracker [k] (f path k) (g path k)) (path : String) :
    Notes out.heap out.tracker (inlined out.heap out.tracker h)
      (out.defineWith f path out.inlineLogged h) (out.defineWith g path out.inline h) := by
  cases ho : out.heap.get? h with
  | none =>
    simp only [defineWith, ho]
    exact notes_throw _ _
  | some o =>
    cases o with
    | function f =>
      simp only [defineWith, ho]
      rw [inlined, uses_of_function ho, Tracker.unnamed_filterMap]
      exact (f.gathers_render.notes _ _ fun l _ => l.notes_write notes_inline).map _
    | seq | type | anchor | feature | record =>
      rw [inlined, uses_of_not_function ho (by simp), ← List.filterMap_eq_map,
        Tracker.unnamed_filterMap]
      exact (gathers_defineWith ho (by simp)).notes ⟨f, out.inlineLogged⟩ ⟨g, out.inline⟩
        fun c _ => notes_child hf path c

theorem notes_defineWithin (depth : Nat) (path : String) (h : Handle) :
    Notes out.heap out.tracker [h] (out.defineLogged depth path h)
      (out.defineWithin depth path h) := by
  induction depth generalizing path h with
  | zero => exact notes_throw _ _
  | succ depth ih =>
    rw [defineWithin_succ_eq]
    exact (notes_defineWith ih path).noting fun _ hs => slots_of_defineWith hs

theorem notes_bindAll {f : Handle → Logged (List Piece)} {g : Handle → Except Fault (List Piece)}
    (hf : ∀ k, Notes out.heap out.tracker [k] (f k) (g k)) (bound : HandleSet) (hs : List Handle) :
    Notes out.heap out.tracker hs (out.bindAll f bound hs) (out.bindAll g bound hs) := by
  induction hs generalizing bound with
  | nil => exact .pure _
  | cons h hs ih =>
    exact (hf h).bind fun pieces => (ih (bound.insert h)).map _

theorem notes_companion : Notes out.heap out.tracker out.order out.companionLogged out.companion :=
  notes_bindAll (fun k => notes_defineWithin out.depth (out.binding k) k) {} out.order

end Output

theorem notes_renderProgram {f : Item → Logged String} {g : Item → Except Fault String}
    (hf : ∀ x, Notes heap t (t.unnamed [x]) (f x) (g x)) (program : Program) :
    Notes heap t (t.unnamed (Stmt.itemsAll program)) (renderProgram (plainWriter f) program)
      (renderProgram (plainWriter g) program) := by
  rw [← (Stmt.parts_leavesAll program (bindings program ++ [])).1, Tracker.unnamed_filterMap]
  exact (gathers_renderProgram program).notes _ _ fun l _ => l.notes_write hf

/-- The log of a whole emission: the objects in the text of the program, and then the bindings. -/
theorem notes_emit (program : Program) (heap : Heap) (t : Tracker) (names : Naming) :
    Notes heap t
      (t.unnamed (Stmt.itemsAll program) ++ (companionOutput heap t names).order)
      (emitLogged program heap t names) (emit program heap t names) := by
  have hbody := notes_renderProgram (primaryOutput heap t names).notes_inline program
  have hcompanion := (companionOutput heap t names).notes_companion
  exact hbody.bind fun body => (hcompanion.map _).map _

end Comptime
