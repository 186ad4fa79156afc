import Comptime.Emit.Modules
import Comptime.Proofs.Edges
import Comptime.Proofs.Layout
import Comptime.Proofs.Logging
import Comptime.Proofs.Tracking
import Mathlib

/-! Hygiene of emitted references. A tracked object is written by its name wherever it is mentioned,
whatever is bound there. So the reference denotes the object exactly if the name it starts with is
not bound around it. -/
namespace Comptime

/-- A part of emitted text: fixed text, or a reference to a tracked object and the names bound
around it. -/
inductive Segment
  | text (text : String)
  | ref (scope : Scope) (id : Nat)

namespace Segment

def written (name : Nat → String) : Segment → String
  | text s => s
  | ref _ id => name id

def join (name : Nat → String) (segments : List Segment) : String :=
  String.join (segments.map (written name))

end Segment

/-- The parts of an object that is written in place. -/
def Object.parts? : Object → Option (List Part)
  | seq items =>
    some (.text "[" :: Part.separated ", " (items.map fun x => [.leaf [] (.item x)]) ++
      [.text "]"])
  | function f => some f.parts
  | _ => none

def Heap.parts? (heap : Heap) (h : Handle) : Option (List Part) :=
  (heap.get? h).bind Object.parts?

/-- What run-time text is made of. -/
inductive Source
  | program (program : Program)
  | function (closure : Closure)
  | item (item : Item)

namespace Source

def render (w : Writer (Except Fault)) : Source → Except Fault String
  | program p => renderProgram w p
  | function f => f.render w
  | item x => w.item x

def parts : Source → List Part
  | program p => programParts p
  | function f => f.parts
  | item x => [.leaf [] (.item x)]

/-- The names that are bound in it. -/
def binders : Source → List String
  | program p => Stmt.bindersAll p
  | function f => f.binders
  | item _ => []

theorem render_eq {w : Writer (Except Fault)} (src : Source) :
    src.render w = Part.writeAll w src.parts := by
  cases src with
  | program p => exact renderProgram_eq p
  | function f => exact f.render_eq
  | item x => simp [render, parts, Leaf.write]

theorem avoids_parts {src : Source} {n : String} (hn : n ∉ src.binders) :
    Part.Avoids n src.parts := by
  cases src with
  | program p => exact avoids_programParts hn
  | function f => exact f.avoids_parts hn
  | item x => simp [parts]

end Source

theorem Heap.avoids_parts {heap : Heap} {h : Handle} {n : String} {parts : List Part}
    (hf : ∀ f, heap.get? h = some (.function f) → n ∉ f.binders)
    (hp : heap.parts? h = some parts) : Part.Avoids n parts := by
  obtain ⟨o, ho, hp⟩ := Option.bind_eq_some_iff.mp hp
  cases o with
  | seq items =>
    cases hp
    simp
  | function f =>
    cases hp
    exact f.avoids_parts (hf f ho)
  | type | anchor | feature | record => cases hp

namespace Output

section Layout

variable (out : Output) (expand : Scope → Handle → Except Fault (List Segment))

/-- An item where `scope` is bound, with `expand` for the objects that have no name. -/
def spellLayout (scope : Scope) : Item → Except Fault (List Segment)
  | .ref h =>
    match out.tracker.id? h with
    | some id => pure [.ref scope id]
    | none => expand scope h
  | x => return [.text ((← x.literal).getD "")]

/-- A part of run-time code where `outer` is bound around the code. -/
def partLayout (outer : Scope) : Part → Except Fault (List Segment)
  | .text s => pure [.text s]
  | .leaf scope (.item x) => out.spellLayout expand (scope ++ outer) x
  | .leaf _ (.free name) => pure [.text name]
  | .leaf _ (.slot a) => throw (.notLowered a)

def partsLayout (outer : Scope) (parts : List Part) : Except Fault (List Segment) :=
  List.flatten <$> parts.mapM (out.partLayout expand outer)

def expandLayoutWith (outer : Scope) (h : Handle) : Except Fault (List Segment) :=
  match out.heap.parts? h with
  | some parts => out.partsLayout expand outer parts
  | none => throw (.notInline ((out.heap.get? h).elim "object" Object.kindName) h)

end Layout

/-- An object in place where `outer` is bound, with at most `depth` objects inside each other. -/
def expandLayout (out : Output) : Nat → Scope → Handle → Except Fault (List Segment)
  | 0, _, _ => throw .tooDeep
  | depth + 1, outer, h => out.expandLayoutWith (expandLayout out depth) outer h

/-- The text of a source as segments. -/
def layout (out : Output) (src : Source) : Except Fault (List Segment) :=
  out.partsLayout (out.expandLayout out.depth) [] src.parts

section Texts

variable {out : Output} {expand : Handle → Except Fault String}
  {expandL : Scope → Handle → Except Fault (List Segment)}
  (hx : ∀ scope h, expand h = Segment.join out.name <$> expandL scope h)
include hx

theorem spell_eq (scope : Scope) (x : Item) :
    out.spell expand x = Segment.join out.name <$> out.spellLayout expandL scope x := by
  cases x with
  | ref h =>
    simp only [spell, spellLayout]
    cases out.tracker.id? h with
    | some id => simp [Segment.join, Segment.written]
    | none => exact hx scope h
  | _ => simp [spell, spellLayout, Segment.join, Segment.written]

theorem write_eq (outer : Scope) (p : Part) :
    p.write (plainWriter (out.spell expand)) =
      Segment.join out.name <$> out.partLayout expandL outer p := by
  cases p with
  | text s => simp [Part.write, partLayout, Segment.join, Segment.written]
  | leaf scope l =>
    cases l with
    | item x => exact spell_eq hx (scope ++ outer) x
    | free name =>
      simp [Part.write, Leaf.write, plainWriter, partLayout, Segment.join, Segment.written]
    | slot a => rfl

theorem writeAll_eq (outer : Scope) (parts : List Part) :
    Part.writeAll (plainWriter (out.spell expand)) parts =
      Segment.join out.name <$> out.partsLayout expandL outer parts := by
  induction parts with
  | nil => rfl
  | cons p ps ih =>
    rw [Part.writeAll_cons, ih, write_eq hx outer p]
    simp [partsLayout, Segment.join]

theorem expandWith_eq (outer : Scope) (h : Handle) :
    out.expandWith expand h = Segment.join out.name <$> out.expandLayoutWith expandL outer h := by
  unfold expandWith expandLayoutWith Heap.parts?
  cases ho : out.heap.get? h with
  | none => rfl
  | some o =>
    cases o with
    | seq items =>
      refine Eq.trans ?_ (writeAll_eq hx outer _)
      simp [Part.writeAll_leaf, List.mapM_map, Function.comp_def, Leaf.write, plainWriter, commas,
        String.append_assoc]
    | function f => exact f.render_eq.trans (writeAll_eq hx outer f.parts)
    | type | anchor | feature | record => rfl

end Texts

variable {out : Output}

theorem expandWithin_eq (depth : Nat) (outer : Scope) (h : Handle) :
    out.expandWithin depth h = Segment.join out.name <$> out.expandLayout depth outer h := by
  induction depth generalizing outer h with
  | zero => rfl
  | succ depth ih => exact expandWith_eq ih outer h

/-- The text of a source is what its segments spell. -/
theorem render_eq (src : Source) :
    src.render out.writer = Segment.join out.name <$> out.layout src := by
  rw [src.render_eq]
  exact writeAll_eq (expandWithin_eq out.depth) [] src.parts

section References

variable {expand : Scope → Handle → Except Fault (List Segment)} {outer scope : Scope}
  {parts : List Part} {segments : List Segment} {id : Nat}

/-- Writing the parts where `outer` is bound mentions the tracked object `id` where `scope` is
bound. -/
inductive Shows (out : Output) : Scope → List Part → Scope → Nat → Prop
  | named {outer scope : Scope} {parts : List Part} {h : Handle} {id : Nat} :
    .leaf scope (.item (.ref h)) ∈ parts → out.tracker.id? h = some id →
      Shows out outer parts (scope ++ outer) id
  | inside {outer inner scope : Scope} {parts more : List Part} {h : Handle} {id : Nat} :
    .leaf inner (.item (.ref h)) ∈ parts → out.tracker.id? h = none →
      out.heap.parts? h = some more → Shows out (inner ++ outer) more scope id →
        Shows out outer parts scope id

theorem mem_flatten_mapM {α β : Type} {f : α → Except Fault (List β)} {as : List α}
    {bss : List (List β)} (h : as.mapM f = .ok bss) {b : β} :
    b ∈ bss.flatten ↔ ∃ a ∈ as, ∃ bs, f a = .ok bs ∧ b ∈ bs := by
  induction as generalizing bss with
  | nil =>
    cases h
    simp
  | cons a as ih =>
    obtain ⟨bs, css, hbs, hcss, rfl⟩ := mapM_cons_eq_ok.mp h
    simp [ih hcss, hbs]

theorem exists_mapM_of_partsLayout (h : out.partsLayout expand outer parts = .ok segments) :
    ∃ sss, parts.mapM (out.partLayout expand outer) = .ok sss ∧ sss.flatten = segments := by
  rw [partsLayout, map_eq_pure_bind] at h
  obtain ⟨sss, hsss, h⟩ := bind_eq_ok.mp h
  exact ⟨sss, hsss, pure_eq_ok.mp h⟩

theorem mem_partsLayout (h : out.partsLayout expand outer parts = .ok segments) {s : Segment} :
    s ∈ segments ↔ ∃ p ∈ parts, ∃ ss, out.partLayout expand outer p = .ok ss ∧ s ∈ ss := by
  obtain ⟨sss, hsss, rfl⟩ := exists_mapM_of_partsLayout h
  exact mem_flatten_mapM hsss

/-- Only a mention of an object leaves a reference, its own or one inside it. -/
theorem mem_partLayout {p : Part} (h : out.partLayout expand outer p = .ok segments)
    (hm : .ref scope id ∈ segments) :
    ∃ inner h, p = .leaf inner (.item (.ref h)) ∧
      (out.tracker.id? h = some id ∧ scope = inner ++ outer ∨
        out.tracker.id? h = none ∧ expand (inner ++ outer) h = .ok segments) := by
  cases p with
  | text s =>
    cases h
    simp at hm
  | leaf inner l =>
    cases l with
    | slot a => cases h
    | free name =>
      cases h
      simp at hm
    | item x =>
      cases x with
      | ref k =>
        refine ⟨inner, k, rfl, ?_⟩
        simp only [partLayout, spellLayout] at h
        cases hk : out.tracker.id? k with
        | none => exact .inr ⟨rfl, by simpa [hk] using h⟩
        | some id' =>
          rw [hk] at h
          cases h
          obtain ⟨rfl, rfl⟩ : scope = inner ++ outer ∧ id = id' := by simpa using hm
          exact .inl ⟨rfl, rfl⟩
      | _ =>
        obtain ⟨s, -, h⟩ := bind_eq_ok.mp h
        cases h
        simp at hm

theorem exists_parts_of_expandLayout {depth : Nat} {h : Handle}
    (hs : out.expandLayout depth outer h = .ok segments) :
    ∃ d parts, d + 1 = depth ∧ out.heap.parts? h = some parts ∧
      out.partsLayout (out.expandLayout d) outer parts = .ok segments := by
  cases depth with
  | zero => cases hs
  | succ depth =>
    rw [expandLayout, expandLayoutWith] at hs
    split at hs
    · exact ⟨depth, _, rfl, ‹_›, hs⟩
    · cases hs

/-- Every reference of the segments comes from a mention in the source. -/
theorem shows_of_mem {depth : Nat}
    (h : out.partsLayout (out.expandLayout depth) outer parts = .ok segments)
    (hm : .ref scope id ∈ segments) : out.Shows outer parts scope id := by
  induction depth using Nat.strong_induction_on generalizing outer parts segments with
  | _ depth ih =>
    obtain ⟨p, hp, ss, hss, hm⟩ := (mem_partsLayout h).mp hm
    obtain ⟨inner, k, rfl, ⟨hk, rfl⟩ | ⟨hk, hx⟩⟩ := mem_partLayout hss hm
    · exact .named hp hk
    · obtain ⟨d, more, rfl, hmore, hx⟩ := exists_parts_of_expandLayout hx
      exact .inside hp hk hmore (ih d (Nat.lt_succ_self d) hx hm)

/-- Every mention in the source leaves its reference, in the scope where it stands. -/
theorem Shows.mem (hs : out.Shows outer parts scope id) {depth : Nat}
    (h : out.partsLayout (out.expandLayout depth) outer parts = .ok segments) :
    .ref scope id ∈ segments := by
  induction hs generalizing depth segments with
  | @named outer scope parts k id hp hk =>
    have hpart : out.partLayout (out.expandLayout depth) outer (.leaf scope (.item (.ref k))) =
        .ok [.ref (scope ++ outer) id] := by
      simp only [partLayout, spellLayout, hk]
      rfl
    exact (mem_partsLayout h).mpr ⟨_, hp, _, hpart, List.mem_singleton_self _⟩
  | @inside outer inner scope parts more k id hp hk hmore _ ih =>
    -- the object was written, so there was depth left for what is inside it
    obtain ⟨sss, hsss, -⟩ := exists_mapM_of_partsLayout h
    obtain ⟨ss, hss⟩ := mapM_ok hsss _ hp
    refine (mem_partsLayout h).mpr ⟨_, hp, ss, hss, ?_⟩
    simp only [partLayout, spellLayout, hk] at hss
    obtain ⟨d, more', rfl, hmore', hss⟩ := exists_parts_of_expandLayout hss
    obtain rfl : more = more' := Option.some.inj (hmore.symm.trans hmore')
    exact ih hss

end References

section Capture

/-- The name that a reference starts with, all up to its first dot. -/
def leadingName (text : String) : String := String.ofList (text.toList.takeWhile (· ≠ '.'))

/-- Every reference denotes its object: the name it starts with is not bound around it. -/
def Hygienic (name : Nat → String) (segments : List Segment) : Prop :=
  ∀ scope id, .ref scope id ∈ segments → leadingName (name id) ∉ scope

variable {outer scope : Scope} {parts : List Part} {segments : List Segment} {src : Source}
  {id : Nat} {n : String}

theorem leadingName_imported (names : Naming) (id : Nat) :
    leadingName (names.imported id) = leadingName names.importName := by
  have hstop (l r : List Char) : (l ++ '.' :: r).takeWhile (· ≠ '.') = l.takeWhile (· ≠ '.') := by
    induction l with
    | nil => rfl
    | cons c l ih => simp_all [List.takeWhile_cons]
  have hchars : (names.imported id).toList =
      names.importName.toList ++ '.' :: (names.binding id).toList := by
    simp [Naming.imported]
  rw [leadingName, hchars, hstop, leadingName]

/-- A name that nothing binds is not in the scope of any reference. -/
theorem Shows.not_mem (hs : out.Shows outer parts scope id) (ho : n ∉ outer)
    (hp : Part.Avoids n parts)
    (hf : ∀ h f, out.heap.get? h = some (.function f) → n ∉ f.binders) : n ∉ scope := by
  induction hs with
  | named hmem _ => simp [hp _ _ hmem, ho]
  | inside hmem _ hmore _ ih =>
    exact ih (by simp [hp _ _ hmem, ho]) (Heap.avoids_parts (hf _) hmore)

theorem Shows.id_lt (hs : out.Shows outer parts scope id) : id < out.tracker.size := by
  induction hs with
  | named _ hk => exact Tracker.id?_lt hk
  | inside _ _ _ _ ih => exact ih

/-- The name is bound somewhere in the source or in a function of the heap. -/
def Binds (out : Output) (src : Source) (n : String) : Prop :=
  n ∈ src.binders ∨ ∃ h f, out.heap.get? h = some (.function f) ∧ n ∈ f.binders

theorem hygienic_of_not_binds (h : out.layout src = .ok segments)
    (hn : ∀ id < out.tracker.size, ¬out.Binds src (leadingName (out.name id))) :
    Hygienic out.name segments := by
  intro scope id hm
  have hs := shows_of_mem h hm
  have hb := not_or.mp (hn id hs.id_lt)
  exact hs.not_mem List.not_mem_nil (Source.avoids_parts hb.1) fun h f hf hmem =>
    hb.2 ⟨h, f, hf, hmem⟩

end Capture

/-- Emitted references. The text of a source is fixed text with a reference for each mention of a
tracked object, in the scope where the mention stands. All references denote their objects if
nothing binds the name that one of them starts with; in the primary module this is the name of the
import. -/
theorem references_exact (out : Output) (src : Source) :
    src.render out.writer = Segment.join out.name <$> out.layout src ∧
      ∀ segments, out.layout src = .ok segments →
        (∀ scope id, .ref scope id ∈ segments ↔ out.Shows [] src.parts scope id) ∧
        ((∀ id < out.tracker.size, ¬out.Binds src (leadingName (out.name id))) →
          Hygienic out.name segments) ∧
        ∀ names : Naming, out.name = names.imported →
          ¬out.Binds src (leadingName names.importName) → Hygienic out.name segments := by
  refine ⟨render_eq src, fun segments h => ⟨fun scope id => ?_, hygienic_of_not_binds h, ?_⟩⟩
  · exact ⟨shows_of_mem h, fun hs => hs.mem h⟩
  · intro names hname hn
    refine hygienic_of_not_binds h fun id _ => ?_
    rwa [hname, leadingName_imported]

/-- A record, and a function with a parameter of this name that holds the record as `x`. -/
def capturingHeap (param : String) (value : Code) : Heap :=
  ⟨#[.record [] [("a", .null)], .function ⟨"f", [param], [.ret value], [("x", .ref 0)]⟩]⟩

def exportingProgram : Program := [.exportConst "f" (.lit (.ref 1))]

/-- A parameter of another name leaves the reference to the record alone. -/
theorem references_exact_capturing :
    ∃ out segments,
      out = primaryOutput (capturingHeap "item0" (.ident "x"))
        (Tracker.run (capturingHeap "item0" (.ident "x")) {} [.addRoot (.ref 1), .close]) {} ∧
      out.layout (.program exportingProgram) = .ok segments ∧
      .ref ["item0", "f", "f"] 0 ∈ segments ∧ Hygienic out.name segments := by
  refine ⟨_, [.text "export const f = ", .text "function f(item0) \x7b ", .text "return ",
    .ref ["item0", "f", "f"] 0, .text ";", .text " \x7d", .text ";"], rfl, by cbv, by simp, ?_⟩
  refine ((references_exact _ (.program exportingProgram)).2 _ (by cbv)).2.2 {} rfl ?_
  rintro (hmem | ⟨h, f, hf, hmem⟩)
  · revert hmem
    decide
  · rcases h with _ | _ | h
    · cases hf
    · cases hf
      revert hmem
      decide
    · cases hf

/-- The parameter hides the import, and the reference reads the argument of the function. The
modules are those of a function that was written to do so. -/
theorem not_hygienic_capturing :
    (∃ out segments,
      out = primaryOutput (capturingHeap "__items" (.ident "x"))
        (Tracker.run (capturingHeap "__items" (.ident "x")) {} [.addRoot (.ref 1), .close]) {} ∧
      out.layout (.program exportingProgram) = .ok segments ∧
      ¬Hygienic out.name segments) ∧
      ∀ value ∈ [.ident "x", .member (.ident "__items") "item0"],
        emit exportingProgram (capturingHeap "__items" value)
          (Tracker.run (capturingHeap "__items" value) {} [.addRoot (.ref 1), .close]) {} =
        .ok {
          primary := "import * as __items from \"./items.js\";\n" ++
            "export const f = function f(__items) \x7b return __items.item0; \x7d;"
          companion := "export const item0 = \x7b a: null \x7d;"
          primaryFile := "main.js"
          companionFile := "items.js"
          patches := 0
          tracked := 1 } := by
  constructor
  · refine ⟨_, [.text "export const f = ", .text "function f(__items) \x7b ", .text "return ",
      .ref ["__items", "f", "f"] 0, .text ";", .text " \x7d", .text ";"], rfl, by cbv, ?_⟩
    intro h
    exact h ["__items", "f", "f"] 0 (by simp) (by decide)
  · refine List.forall_mem_cons.mpr ⟨by cbv, List.forall_mem_singleton.mpr (by cbv)⟩

end Output

end Comptime
