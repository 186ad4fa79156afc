import Comptime.Proofs.Renaming.Rendering
import Comptime.Proofs.Renaming.Tracking
import Comptime.Proofs.Traversal

/-! The text of objects inside each other. It is cut off at a depth that grows with the heap, so the
text could depend on objects that are not in it; it does not, since a nesting that ends is never
deeper than the number of objects. -/
namespace Comptime

section Saturation

variable {ι α : Type} {E : Nat → ι → Handle → Except Fault α} {size : Nat}

/-- A bounded recursion over the handles below `size`: a larger bound does no harm, and whether
there is a result does not depend on the parameter. -/
structure Bounded (E : Nat → ι → Handle → Except Fault α) (size : Nat) : Prop where
  zero : ∀ i h a, E 0 i h ≠ .ok a
  lt : ∀ {d i h a}, E d i h = .ok a → h < size
  step : ∀ {d e}, (∀ i h, Agrees False Eq (E d i h) (E e i h)) →
    ∀ i h, Agrees False Eq (E (d + 1) i h) (E (e + 1) i h)
  any : ∀ {d i h a} j, E d i h = .ok a → ∃ b, E d j h = .ok b

namespace Bounded

/-- How many handles have a result within the bound. -/
def reached (E : Nat → ι → Handle → Except Fault α) (size : Nat) (i : ι) (d : Nat) : Nat :=
  (List.range size).countP fun h => (E d i h).isOk

variable (hb : Bounded E size)
include hb

theorem le_succ (d : Nat) : ∀ i h, Agrees False Eq (E d i h) (E (d + 1) i h) := by
  induction d with
  | zero =>
    intro i h
    exact Agrees.false_iff.mpr fun a ha => absurd ha (hb.zero i h a)
  | succ d ih => exact hb.step ih

theorem le {d e : Nat} (hde : d ≤ e) (i : ι) (h : Handle) :
    Agrees False Eq (E d i h) (E e i h) := by
  induction e, hde using Nat.le_induction with
  | base => exact .refl _
  | succ e _ ih => exact ih.trans_eq (hb.le_succ e i h)

/-- Once a larger bound brings nothing new, no bound does. -/
theorem stationary {d : Nat} (hs : ∀ i h, Agrees False Eq (E (d + 1) i h) (E d i h)) (n : Nat) :
    ∀ i h, Agrees False Eq (E (d + n) i h) (E d i h) := by
  have hsucc (n : Nat) : ∀ i h, Agrees False Eq (E (d + n + 1) i h) (E (d + n) i h) := by
    induction n with
    | zero => exact hs
    | succ n ih => exact hb.step ih
  induction n with
  | zero => exact fun i h => .refl _
  | succ n ih => exact fun i h => (hsucc n i h).trans_eq (ih i h)

/-- A bound that brings something new brings it for one more handle. -/
theorem reached_lt (i : ι) {d : Nat} (hn : ¬∀ i h, Agrees False Eq (E (d + 1) i h) (E d i h)) :
    reached E size i d < reached E size i (d + 1) := by
  simp only [Agrees.false_iff, not_forall] at hn
  obtain ⟨j, h, a, ha, hna⟩ := hn
  have hnone : ∀ b, E d i h ≠ .ok b := by
    intro b hb'
    obtain ⟨c, hc⟩ := hb.any j hb'
    have := Agrees.false_iff.mp (hb.le_succ d j h) c hc
    cases ha.symm.trans this
    exact hna hc
  obtain ⟨b, hi⟩ := hb.any i ha
  apply countP_lt_countP (a := h)
  · intro k hk
    cases hE : E d i k with
    | error e => simp [hE, Except.isOk, Except.toBool] at hk
    | ok c => simp [Agrees.false_iff.mp (hb.le_succ d i k) c hE, Except.isOk, Except.toBool]
  · exact List.mem_range.mpr (hb.lt ha)
  · simp [hi, Except.isOk, Except.toBool]
  · cases hE : E d i h with
    | error e => rfl
    | ok c => exact absurd hE (hnone c)

/-- Up to any bound, each step brings something new or some step before brought nothing. -/
theorem le_reached_or (i : ι) (d : Nat) :
    d ≤ reached E size i d ∨ ∃ e < d, ∀ i h, Agrees False Eq (E (e + 1) i h) (E e i h) := by
  induction d with
  | zero => exact Or.inl (Nat.zero_le _)
  | succ d ih =>
    by_cases hs : ∀ i h, Agrees False Eq (E (d + 1) i h) (E d i h)
    · exact Or.inr ⟨d, Nat.lt_succ_self d, hs⟩
    · rcases ih with hle | ⟨e, he, hs'⟩
      · have := hb.reached_lt i hs
        exact Or.inl (by omega)
      · exact Or.inr ⟨e, by omega, hs'⟩

/-- No bound brings more than the number of handles. -/
theorem agrees {d e : Nat} (hd : size ≤ d) (he : size ≤ e) (i : ι) (h : Handle) {back : Prop} :
    Agrees back Eq (E d i h) (E e i h) := by
  have hle : ∀ n, Agrees False Eq (E n i h) (E size i h) := by
    intro n
    rcases hb.le_reached_or i (size + 1) with hlen | ⟨m, hm, hs⟩
    · have : reached E size i (size + 1) ≤ size := by
        unfold reached
        exact List.countP_le_length.trans_eq List.length_range
      omega
    · have h1 : Agrees False Eq (E n i h) (E (m + n) i h) := hb.le (by omega) i h
      have h2 := hb.stationary hs n i h
      have h3 : Agrees False Eq (E m i h) (E size i h) := hb.le (by omega) i h
      exact (h1.trans_eq h2).trans_eq h3
  exact .of_false ((hle d).trans_eq (hb.le he i h)) ((hle e).trans_eq (hb.le hd i h))

end Bounded

end Saturation

variable {r : Renaming} {D : Handle → Prop} {back : Prop}

theorem Heap.Mirrors.within {heap heap' : Heap} {h : Handle} {o : Object}
    (hm : heap.Mirrors r D heap') (hd : D h) (ho : heap.get? h = some o) {x : Item}
    (hx : x ∈ o.children.map Prod.snd) : x.Within D := by
  refine within_of_refsOf (fun k hk => hm.closed hd ?_) hx
  simpa [Heap.refs, Heap.items, Heap.children, ho] using hk

theorem Tracker.Mirrors.refl (t : Tracker) : t.Mirrors {} (fun _ => True) t where
  order := (List.map_id _).symm
  noted _ _ := Iff.rfl
  expanded _ _ := Iff.rfl
  queue := (List.map_id _).symm
  mem_order _ := trivial
  mem_queue _ := trivial

namespace Output

/-- The second output is the first one renamed. Generics keep their names, which are all of them
that is written. -/
structure Mirrors (r : Renaming) (D : Handle → Prop) (out out' : Output) : Prop where
  heap : out.heap.Mirrors r D out'.heap
  tracker : out.tracker.Mirrors r D out'.tracker
  name : out'.name = out.name
  generic : ∀ g, (r.generic g).name = g.name

variable {out out' : Output} {h : Handle} {x : Item}

theorem Mirrors.refl (out : Output) : out.Mirrors {} (fun _ => True) out where
  heap := .refl _
  tracker := .refl _
  name := rfl
  generic _ := rfl

/-- Bindings have the same names. -/
theorem Mirrors.binding (hm : out.Mirrors r D out') (hd : D h) :
    out'.binding (r.handle h) = out.binding h := by
  have hsize : out'.tracker.size = out.tracker.size := by
    rw [← Tracker.length_order, ← Tracker.length_order, hm.tracker.order, List.length_map]
  rw [Output.binding, Output.binding, Tracker.id?_mirrors hm.heap hm.tracker hd, hm.name, hsize]

theorem agrees_spell (hm : out.Mirrors r D out') {expand expand' : Handle → Except Fault String}
    (he : ∀ h, D h → Agrees back Eq (expand h) (expand' (r.handle h))) (hx : x.Within D) :
    Agrees back Eq (out.spell expand x) (out'.spell expand' (x.rename r)) := by
  cases x with
  | ref h =>
    have hd := hx h rfl
    simp only [Item.rename, spell, Tracker.id?_mirrors hm.heap hm.tracker hd, hm.name]
    cases out.tracker.id? h with
    | some id => exact .refl _
    | none => exact he h hd
  | absent | hole => trivial
  | _ => exact .refl _

theorem agrees_plainWriter {item item' : Item → Except Fault String} :
    (plainWriter item).Agrees back r (plainWriter item') where
  free _ := .refl _
  comptime _ := trivial

/-- One level of nesting. The depths may differ, as long as the text one level down agrees. -/
theorem agrees_expandWithin_succ (hm : out.Mirrors r D out') {d e : Nat}
    (he : ∀ h, D h → Agrees back Eq (out.expandWithin d h) (out'.expandWithin e (r.handle h)))
    (hd : D h) :
    Agrees back Eq (out.expandWithin (d + 1) h) (out'.expandWithin (e + 1) (r.handle h)) := by
  simp only [expandWithin, expandWith, hm.heap.get? hd]
  cases ho : out.heap.get? h with
  | none => trivial
  | some o =>
    have hin : ∀ x ∈ o.children.map Prod.snd, x.Within D := fun x => hm.heap.within hd ho
    cases o with
    | seq items =>
      have hitems : ∀ x ∈ items, x.Within D := by
        simpa [Object.children, indexed, Function.comp_def] using hin
      have hparts := Agrees.mapM_eq fun x hx => agrees_spell hm he (hitems x hx)
      exact hparts.bind_eq fun parts => .pure rfl
    | function f =>
      exact f.agrees_render agrees_plainWriter fun x hx => agrees_spell hm he (hin x hx)
    | _ => trivial

theorem agrees_expandWithin (hm : out.Mirrors r D out') (d : Nat) (hd : D h) :
    Agrees back Eq (out.expandWithin d h) (out'.expandWithin d (r.handle h)) := by
  induction d generalizing h with
  | zero => trivial
  | succ d ih => exact agrees_expandWithin_succ hm (fun h hd => ih hd) hd

theorem bounded_expandWithin (out : Output) :
    Bounded (fun d (_ : Unit) => out.expandWithin d) out.heap.size where
  zero _ h a ha := nomatch ha
  lt {d _ h a} ha := by
    cases d with
    | zero => cases ha
    | succ d =>
      cases ho : out.heap.get? h with
      | none =>
        simp only [expandWithin, expandWith, ho] at ha
        cases ha
      | some o => exact Heap.get?_lt ho
  step he i h :=
    agrees_expandWithin_succ (Mirrors.refl out) (fun h _ => he i h) trivial
  any _ ha := ⟨_, ha⟩

/-- Items are written alike, whatever else the heaps hold. -/
theorem agrees_inline (hm : out.Mirrors r D out') (hx : x.Within D) :
    Agrees back Eq (out.inline x) (out'.inline (x.rename r)) := by
  refine agrees_spell hm (fun h hd => ?_) hx
  -- Both depths may be replaced by one that is enough for both heaps.
  have h1 : Agrees back Eq (out.expandWithin out.depth h)
      (out.expandWithin (out.depth + out'.depth) h) :=
    out.bounded_expandWithin.agrees (by simp [depth]) (by simp only [depth]; omega) () h
  have h2 : Agrees back Eq (out'.expandWithin (out.depth + out'.depth) (r.handle h))
      (out'.expandWithin out'.depth (r.handle h)) :=
    out'.bounded_expandWithin.agrees (by simp only [depth]; omega) (by simp [depth]) () _
  exact (h1.trans_eq (agrees_expandWithin hm _ hd)).trans_eq h2

end Output

/-! The pieces of definitions. -/

/-- Pieces with the same text, or references at related paths. -/
inductive Piece.Mirrors (Q : String → String → Prop) (r : Renaming) (D : Handle → Prop) :
    Piece → Piece → Prop
  | text (s : String) : Mirrors Q r D (.text s) (.text s)
  | ref {path path' : String} {h : Handle} (hq : Q path path') (hd : D h) :
    Mirrors Q r D (.ref path h) (.ref path' (r.handle h))

/-- Lists of pieces that correspond one by one. -/
abbrev PiecesMirror (Q : String → String → Prop) (r : Renaming) (D : Handle → Prop) :
    List Piece → List Piece → Prop :=
  List.Forall₂ (Piece.Mirrors Q r D)

/-- Lists of parts that correspond one by one. -/
abbrev PartsMirror (Q : String → String → Prop) (r : Renaming) (D : Handle → Prop) :
    List (List Piece) → List (List Piece) → Prop :=
  List.Forall₂ (PiecesMirror Q r D)

section Pieces

variable {Q : String → String → Prop} {ps qs : List Piece} {parts parts' : List (List Piece)}

theorem PiecesMirror.single (s : String) : PiecesMirror Q r D [.text s] [.text s] :=
  .cons (.text s) .nil

theorem PiecesMirror.entry (key : String) (hp : PiecesMirror Q r D ps qs) :
    PiecesMirror Q r D (Piece.entry key ps) (Piece.entry key qs) :=
  .cons (.text _) hp

theorem PartsMirror.joined (hp : PartsMirror Q r D parts parts') :
    PiecesMirror Q r D (Piece.joined parts) (Piece.joined parts') := by
  induction hp with
  | nil => exact .nil
  | @cons part part' rest rest' h hrest ih =>
    cases hrest with
    | nil => simpa [Piece.joined] using h
    | cons h' hrest' =>
      simp only [Piece.joined, List.intercalate_cons_cons] at ih ⊢
      exact List.rel_append (List.rel_append h (PiecesMirror.single ", ")) ih

theorem PartsMirror.enclosed (left right : String) (hp : PartsMirror Q r D parts parts') :
    PiecesMirror Q r D (Piece.enclosed left right parts) (Piece.enclosed left right parts') :=
  List.rel_append (.cons (.text left) hp.joined) (PiecesMirror.single right)

theorem PartsMirror.isEmpty (hp : PartsMirror Q r D parts parts') :
    parts'.isEmpty = parts.isEmpty := by
  cases hp <;> rfl

theorem PartsMirror.braced (hp : PartsMirror Q r D parts parts') :
    PiecesMirror Q r D (Piece.braced parts) (Piece.braced parts') := by
  simp only [Piece.braced, PartsMirror.isEmpty hp]
  split
  · exact .single _
  · exact PartsMirror.enclosed _ _ hp

/-- A key that is left out with its parts when there are none. -/
theorem PartsMirror.optional (key : String) (hp : PartsMirror Q r D parts parts') :
    PartsMirror Q r D (if parts.isEmpty then [] else [Piece.entry key (Piece.bracketed parts)])
      (if parts'.isEmpty then [] else [Piece.entry key (Piece.bracketed parts')]) := by
  rw [PartsMirror.isEmpty hp]
  split
  · exact .nil
  · exact .cons (.entry key (PartsMirror.enclosed _ _ hp)) .nil

end Pieces

theorem TypeKind.name_rename (k : TypeKind) : (k.rename r).name = k.name := by
  cases k <;> rfl

namespace Output

/-- Two ways to define objects that agree, at paths related by `Q`. -/
structure Definers (back : Prop) (Q : String → String → Prop) (r : Renaming) (D : Handle → Prop)
    (define define' : String → Handle → Except Fault (List Piece)) : Prop where
  append : ∀ {path path'} (s : String), Q path path' → Q (path ++ s) (path' ++ s)
  define : ∀ {path path' h}, Q path path' → D h →
    Agrees back (PiecesMirror Q r D) (define path h) (define' path' (r.handle h))

variable {out out' : Output} {Q : String → String → Prop} {path path' : String} {h : Handle}
  {define define' : String → Handle → Except Fault (List Piece)}

section Literals

variable (hm : out.Mirrors r D out') (hdef : Definers back Q r D define define')
  (hq : Q path path')
include hm hdef hq

theorem agrees_child (c : Child) (hc : c.2.Within D) :
    Agrees back (PiecesMirror Q r D) (out.child define path c)
      (out'.child define' path' (c.rename r)) := by
  obtain ⟨place, x⟩ := c
  cases x with
  | ref k =>
    have hd := hc k rfl
    have hq' := hdef.append (place.accessor?.getD "") hq
    simp only [child, Child.rename, Item.rename, Tracker.isTracked_mirrors hm.heap hm.tracker hd]
    split
    · exact .pure (.cons (.ref hq' hd) .nil)
    · exact hdef.define hq' hd
  | absent | hole => trivial
  | bool b => cases b <;> exact .pure (.single _)
  | _ => exact .pure (.single _)

theorem agrees_children (cs : List Child) (hc : ∀ x ∈ cs.map Prod.snd, x.Within D) :
    Agrees back (PartsMirror Q r D) (out.children define path cs)
      (out'.children define' path' (cs.map (Child.rename r))) :=
  Agrees.mapM fun c hmem => agrees_child hm hdef hq c (hc c.2 (List.mem_map_of_mem hmem))

theorem agrees_entries (place : String → Place) (fields : Fields)
    (hf : ∀ x ∈ (named place fields).map Prod.snd, x.Within D) :
    Agrees back (PartsMirror Q r D) (out.entries define path place fields)
      (out'.entries define' path' place (Fields.rename r fields)) := by
  refine Agrees.mapM fun f hmem => ?_
  have hx : f.2.Within D := hf f.2 (by
    simp only [named, List.map_map, List.mem_map]
    exact ⟨f, hmem, rfl⟩)
  have hvalue := agrees_child hm hdef hq (place f.1, f.2) hx
  exact hvalue.bind fun ps qs hps => .pure (.entry _ hps)

theorem agrees_kindEntries (k : TypeKind) (hk : ∀ x ∈ k.children.map Prod.snd, x.Within D) :
    Agrees back (PartsMirror Q r D) (out.kindEntries define path k)
      (out'.kindEntries define' path' (k.rename r)) := by
  cases k with
  | listOf element =>
    have he := agrees_child hm hdef hq (.typeElement, element)
      (hk element (by simp [TypeKind.children]))
    exact he.bind fun ps qs hps => .pure (.cons (.entry _ hps) .nil)
  | feature key =>
    have ha := agrees_child hm hdef hq (.typeAnchor, key) (hk key (by simp [TypeKind.children]))
    exact ha.bind fun ps qs hps => .pure (.cons (.entry _ hps) .nil)
  | object features fields =>
    simp only [TypeKind.children, List.map_append, List.forall_mem_append] at hk
    have hfeatures := agrees_children hm hdef hq (indexed .typeFeature features) hk.1
    have hfields := agrees_entries hm hdef hq .typeField fields hk.2
    rw [← indexed_rename] at hfeatures
    exact hfeatures.bind fun ps qs hps => hfields.bind fun fs gs hfs =>
      .pure (.cons (.entry _ (PartsMirror.enclosed _ _ hps)) (.cons (.entry _ hfs.braced) .nil))
  | generic site =>
    simp only [TypeKind.rename, kindEntries, hm.generic]
    exact .pure (.cons (.entry _ (.single _)) .nil)
  | _ => exact .pure .nil

theorem agrees_application (a : Application) (entry : Nat)
    (ha : ∀ x ∈ (indexed (.argument entry) (a.args.getD [])).map Prod.snd, x.Within D) :
    Agrees back (PiecesMirror Q r D) (out.application define path a entry)
      (out'.application define' path' (a.rename r) entry) := by
  obtain ⟨site, args⟩ := a
  cases args with
  | none => exact .pure (.single _)
  | some args =>
    have hargs := agrees_children hm hdef hq (indexed (.argument entry) args) ha
    rw [← indexed_rename] at hargs
    exact hargs.bind fun ps qs hps => .pure (PartsMirror.enclosed _ _ hps)

theorem agrees_typeLiteral (t : TypeValue)
    (ht : ∀ x ∈ (Object.type t).children.map Prod.snd, x.Within D) :
    Agrees back (PiecesMirror Q r D) (out.typeLiteral define path t)
      (out'.typeLiteral define' path' (t.rename r)) := by
  simp only [Object.children, List.map_append, List.forall_mem_append] at ht
  have hkind := agrees_kindEntries hm hdef hq t.kind ht.1
  have hargs : Agrees back (PartsMirror Q r D)
      (t.applications.zipIdx.mapM fun p => out.application define path p.1 p.2)
      ((t.rename r).applications.zipIdx.mapM fun p => out'.application define' path' p.1 p.2) := by
    simp only [TypeValue.rename, List.zipIdx_map]
    refine Agrees.mapM fun p hp => agrees_application hm hdef hq p.1 p.2 fun x hx => ht.2 x ?_
    simp only [TypeValue.arguments, List.map_flatMap]
    exact List.mem_flatMap.mpr ⟨p, hp, hx⟩
  simp only [typeLiteral]
  refine hkind.bind fun ps qs hps => hargs.bind fun as bs has => .pure (PartsMirror.braced ?_)
  have hname : (t.rename r).kind.name = t.kind.name := t.kind.name_rename
  rw [hname]
  exact List.rel_append (.cons (.entry _ (.single _)) hps) (PartsMirror.optional _ has)

theorem agrees_recordLiteral (features : List Item) (fields : Fields)
    (ho : ∀ x ∈ (Object.record features fields).children.map Prod.snd, x.Within D) :
    Agrees back (PiecesMirror Q r D) (out.recordLiteral define path features fields)
      (out'.recordLiteral define' path' (features.map (Item.rename r))
        (Fields.rename r fields)) := by
  simp only [Object.children, List.map_append, List.forall_mem_append] at ho
  have hfeatures := agrees_children hm hdef hq (indexed .feature features) ho.1
  have hfields := agrees_entries hm hdef hq .field fields ho.2
  rw [← indexed_rename] at hfeatures
  exact hfeatures.bind fun ps qs hps => hfields.bind fun fs gs hfs =>
    .pure (PartsMirror.braced (List.rel_append (PartsMirror.optional _ hps) hfs))

theorem agrees_featureLiteral (name : String) (key : Item) (fields : Fields)
    (ho : ∀ x ∈ (Object.feature name key fields).children.map Prod.snd, x.Within D) :
    Agrees back (PiecesMirror Q r D) (out.featureLiteral define path name key fields)
      (out'.featureLiteral define' path' name (key.rename r) (Fields.rename r fields)) := by
  simp only [Object.children, List.map_cons, List.forall_mem_cons] at ho
  have hkey := agrees_child hm hdef hq (.featureAnchor, key) ho.1
  have hfields := agrees_entries hm hdef hq .featureField fields ho.2
  exact hkey.bind fun ps qs hps => hfields.bind fun fs gs hfs =>
    .pure (PartsMirror.braced (.cons (.entry _ (.single _))
      (.cons (.entry _ hps) (.cons (.entry _ hfs.braced) .nil))))

end Literals

/-- One level of a definition, given that the text of functions agrees. -/
theorem agrees_defineWithin_succ (hm : out.Mirrors r D out')
    (hin : ∀ x, x.Within D → Agrees back Eq (out.inline x) (out'.inline (x.rename r))) {d e : Nat}
    (hdef : Definers back Q r D (out.defineWithin d) (out'.defineWithin e)) (hq : Q path path')
    (hd : D h) :
    Agrees back (PiecesMirror Q r D) (out.defineWithin (d + 1) path h)
      (out'.defineWithin (e + 1) path' (r.handle h)) := by
  simp only [defineWithin_succ_eq, defineWith, hm.heap.get? hd]
  cases ho : out.heap.get? h with
  | none => trivial
  | some o =>
    have hitems : ∀ x ∈ o.children.map Prod.snd, x.Within D := fun x => hm.heap.within hd ho
    cases o with
    | seq items =>
      have hparts := agrees_children hm hdef hq (indexed .index items) hitems
      rw [← indexed_rename] at hparts
      exact hparts.bind fun ps qs hps => .pure (PartsMirror.enclosed _ _ hps)
    | function f =>
      have htext : Agrees back Eq (f.render out.writer) ((f.rename r).render out'.writer) :=
        f.agrees_render agrees_plainWriter fun x hx => hin x (hitems x hx)
      exact htext.bind_eq fun text => .pure (.single _)
    | type t => exact agrees_typeLiteral hm hdef hq t hitems
    | anchor name => exact .pure (.single _)
    | feature name key fields => exact agrees_featureLiteral hm hdef hq name key fields hitems
    | record features fields => exact agrees_recordLiteral hm hdef hq features fields hitems

theorem definers_defineWithin (hm : out.Mirrors r D out')
    (hin : ∀ x, x.Within D → Agrees back Eq (out.inline x) (out'.inline (x.rename r)))
    (hQ : ∀ {path path'} (s : String), Q path path' → Q (path ++ s) (path' ++ s)) (d : Nat) :
    Definers back Q r D (out.defineWithin d) (out'.defineWithin d) := by
  induction d with
  | zero => exact ⟨hQ, fun _ _ => trivial⟩
  | succ d ih => exact ⟨hQ, agrees_defineWithin_succ hm hin ih⟩

theorem piecesMirror_id {ps qs : List Piece} :
    PiecesMirror Eq {} (fun _ => True) ps qs ↔ ps = qs := by
  have hpiece : Piece.Mirrors Eq {} (fun _ => True) = Eq := by
    funext p q
    ext
    constructor
    · rintro (_ | ⟨rfl, _⟩) <;> rfl
    · rintro rfl
      cases p with
      | text s => exact .text s
      | ref path h => exact .ref rfl trivial
  rw [PiecesMirror, hpiece, List.forall₂_eq_eq_eq]

theorem bounded_defineWithin (out : Output) : Bounded out.defineWithin out.heap.size where
  zero _ h a ha := nomatch ha
  lt {d _ h a} ha := by
    cases d with
    | zero => cases ha
    | succ d =>
      cases ho : out.heap.get? h with
      | none =>
        simp only [defineWithin, defineWith, ho] at ha
        cases ha
      | some o => exact Heap.get?_lt ho
  step {d e} he path h := by
    have hdef : Definers False Eq {} (fun _ => True) (out.defineWithin d) (out.defineWithin e) :=
      ⟨fun s hq => hq ▸ rfl, fun hq _ => hq ▸ (he _ _).mono fun _ _ => piecesMirror_id.mpr⟩
    have hsucc : Agrees False (PiecesMirror Eq {} fun _ => True)
        (out.defineWithin (d + 1) path h) (out.defineWithin (e + 1) path h) :=
      agrees_defineWithin_succ (.refl out) (fun x _ => by simpa using .refl _) hdef rfl trivial
    exact hsucc.mono fun _ _ => piecesMirror_id.mp
  any {d path h a} path' ha := by
    -- Paths occur in the pieces only, so any two of them will do.
    have hdef : Definers False (fun _ _ => True) {} (fun _ => True) (out.defineWithin d)
        (out.defineWithin d) :=
      definers_defineWithin (.refl out) (fun x _ => by simpa using .refl _) (fun _ _ => trivial) d
    have hpath : Agrees False (PiecesMirror (fun _ _ => True) {} fun _ => True)
        (out.defineWithin d path h) (out.defineWithin d path' h) := hdef.define trivial trivial
    obtain ⟨b, hb, _⟩ := hpath.exists_ok ha
    exact ⟨b, hb⟩

/-- Definitions are alike, whatever else the heaps hold. -/
theorem agrees_define (hm : out.Mirrors r D out') (hd : D h) :
    Agrees back (PiecesMirror Eq r D) (out.define h) (out'.define (r.handle h)) := by
  have hb : out'.binding (r.handle h) = out.binding h := hm.binding hd
  have hdef : Definers back Eq r D (out.defineWithin (out.depth + out'.depth))
      (out'.defineWithin (out.depth + out'.depth)) :=
    definers_defineWithin hm (fun x hx => agrees_inline hm hx) (fun s hq => hq ▸ rfl) _
  have h1 : Agrees back Eq (out.define h)
      (out.defineWithin (out.depth + out'.depth) (out.binding h) h) :=
    out.bounded_defineWithin.agrees (by simp [depth]) (by simp only [depth]; omega) _ _
  have h2 : Agrees back Eq
      (out'.defineWithin (out.depth + out'.depth) (out.binding h) (r.handle h))
      (out'.define (r.handle h)) := by
    rw [define, hb]
    exact out'.bounded_defineWithin.agrees (by simp only [depth]; omega) (by simp [depth]) _ _
  exact (h1.eq_trans (hdef.define rfl hd)).trans_eq h2

end Output

end Comptime
