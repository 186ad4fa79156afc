import Comptime.Emit.Inline

/-! The companion module: one binding for each tracked object, what an object needs first, and then
the patches. A reference to an object that is not bound yet closes a cycle; it is written as
`undefined` and patched once all bindings exist. -/
namespace Comptime

/-- Part of the text of a definition: plain text, or a reference to a tracked object that ends up
at the path `path`. -/
inductive Piece
  | text (text : String)
  | ref (path : String) (target : Handle)

namespace Piece

def joined (parts : List (List Piece)) : List Piece := [Piece.text ", "].intercalate parts

def enclosed (left right : String) (parts : List (List Piece)) : List Piece :=
  text left :: joined parts ++ [text right]

def bracketed (parts : List (List Piece)) : List Piece := enclosed "[" "]" parts

/-- An object literal. -/
def braced (entries : List (List Piece)) : List Piece :=
  if entries.isEmpty then [text "\x7b\x7d"] else enclosed "\x7b " " \x7d" entries

def entry (key : String) (value : List Piece) : List Piece := text (key ++ ": ") :: value

end Piece

def TypeKind.name : TypeKind → String
  | missing => "missing"
  | undef => "undefined"
  | null => "null"
  | bool => "boolean"
  | num => "number"
  | str => "string"
  | list | listOf _ => "list"
  | type => "type"
  | anchor => "anchor"
  | feature _ => "feature"
  | object .. => "object"
  | generic _ => "generic"

/-- What has been made of the companion: the objects that are bound, and the patches to be done. -/
structure Assembly where
  bound : HandleSet := {}
  patches : List String := []

/-- Writes a part of the companion. -/
abbrev Assembling := ExceptT Fault (StateM Assembly)

namespace Output

variable (out : Output)

def binding (h : Handle) : String := out.name ((out.tracker.id? h).getD out.tracker.size)

section

variable {m : Type → Type} [Monad m] [MonadLiftT (Except Fault) m]
  (define : String → Handle → m (List Piece)) (path : String)

/-- The child of the object at `path`, with `define` for one that is not tracked. -/
def child (c : Child) : m (List Piece) :=
  match c.2 with
  | .ref h =>
    let path := path ++ c.1.accessor?.getD ""
    if out.tracker.isTracked h then pure [.ref path h] else define path h
  | x => return [.text ((← liftM x.literal).getD "")]

def children (cs : List Child) : m (List (List Piece)) :=
  cs.mapM (out.child define path)

/-- Fields as entries of an object literal. -/
def entries (place : String → Place) (fields : Fields) : m (List (List Piece)) :=
  fields.mapM fun f => do
    let value ← out.child define path (place f.1, f.2)
    return Piece.entry (propertyKey f.1) value

def kindEntries : TypeKind → m (List (List Piece))
  | .listOf element => do
    let element ← out.child define path (.typeElement, element)
    return [Piece.entry "element" element]
  | .feature key => do
    let anchor ← out.child define path (.typeAnchor, key)
    return [Piece.entry "anchor" anchor]
  | .object features fields => do
    let features ← out.children define path (indexed .typeFeature features)
    let fields ← out.entries define path .typeField fields
    return [Piece.entry "features" (Piece.bracketed features),
      Piece.entry "fields" (Piece.braced fields)]
  | .generic site => return [Piece.entry "name" [.text (Text.quoted site.name)]]
  | _ => return []

def application (a : Application) (entry : Nat) : m (List Piece) :=
  match a.args with
  | some args => do
    let args ← out.children define path (indexed (.argument entry) args)
    return Piece.bracketed args
  | none => return [.text "null"]

def typeLiteral (t : TypeValue) : m (List Piece) := do
  let kind := Piece.entry "kind" [.text (Text.quoted t.kind.name)]
  let more ← out.kindEntries define path t.kind
  let args ← t.applications.zipIdx.mapM fun p => out.application define path p.1 p.2
  let args := if args.isEmpty then [] else [Piece.entry "args" (Piece.bracketed args)]
  return Piece.braced (kind :: more ++ args)

def recordLiteral (features : List Item) (fields : Fields) : m (List Piece) := do
  let features ← out.children define path (indexed .feature features)
  let features :=
    if features.isEmpty then [] else [Piece.entry "__features" (Piece.bracketed features)]
  let fields ← out.entries define path .field fields
  return Piece.braced (features ++ fields)

def featureLiteral (name : String) (key : Item) (fields : Fields) : m (List Piece) := do
  let anchor ← out.child define path (.featureAnchor, key)
  let fields ← out.entries define path .featureField fields
  return Piece.braced [Piece.entry "feature" [.text (Text.quoted name)],
    Piece.entry "anchor" anchor, Piece.entry "fields" (Piece.braced fields)]

/-- The definition of the object that ends up at `path`, with `define` for the objects inside it
that have no binding. The body of a function runs when all bindings exist, so it names them
directly, with `item` for the items it holds. -/
def defineWith (item : Item → m String) (h : Handle) : m (List Piece) :=
  match out.heap.get? h with
  | some (.seq items) => do
    let parts ← out.children define path (indexed .index items)
    return Piece.bracketed parts
  | some (.function f) => return [.text (← f.render (plainWriter item))]
  | some (.type t) => out.typeLiteral define path t
  | some (.anchor name) => return [.text ("Symbol(" ++ Text.quoted name ++ ")")]
  | some (.feature name key fields) => out.featureLiteral define path name key fields
  | some (.record features fields) => out.recordLiteral define path features fields
  | none => liftM (throw (.notInline "object" h) : Except Fault (List Piece))

end

/-- The text of an item in the body of a function, with at most `depth` objects inside each other.
All bindings exist when it is read, so it has the name of any tracked object. -/
def convertWithin (depth : Nat) : Item → Assembling String
  | .ref h =>
    match out.tracker.id? h with
    | some id => return out.name id
    | none =>
      match depth with
      | 0 => throw .tooDeep
      | depth + 1 =>
        match out.heap.get? h with
        | some (.seq items) => do
          let parts ← items.mapM (convertWithin depth)
          return "[" ++ commas parts ++ "]"
        | some (.function f) => f.render (plainWriter (convertWithin depth))
        | o => throw (.notInline (o.elim "object" Object.kindName) h)
  | x => return (← liftM x.literal).getD ""

def convert : Item → Assembling String := out.convertWithin out.depth

/-- The text of an item in the body of a function. What is bound by then has no part in it. -/
def deferred (item : Item) : Except Fault String := ((out.convert item).run.run {}).1

/-- The definition of the object that ends up at `path`, with at most `depth` objects inside each
other. -/
def defineWithin : Nat → String → Handle → Except Fault (List Piece)
  | 0, _, _ => throw .tooDeep
  | depth + 1, path, h => out.defineWith (defineWithin depth) path out.deferred h

def define (h : Handle) : Except Fault (List Piece) :=
  out.defineWithin out.depth (out.binding h) h

/-- The objects an object refers to that must exist when it is built. -/
def needs (h : Handle) : List Handle :=
  refsOf (((out.heap.children h).filter fun c => !c.1.isDeferred).map Prod.snd)

/-- The tracked objects needed by the objects on the stack, looking through those without a
binding. -/
def requires : HandleSet → List Handle → List Handle
  | _, [] => []
  | seen, h :: stack =>
    let next := pick out.heap.size seen ((out.needs h).filter fun d => !out.tracker.isTracked d)
    (out.needs h).filter out.tracker.isTracked ++ requires next.2 (next.1.reverse ++ stack)
termination_by seen stack => unseen out.heap.size seen + stack.length
decreasing_by
  have := unseen_pick out.heap.size seen
    ((out.needs h).filter fun d => !out.tracker.isTracked d)
  simp only [List.length_append, List.length_reverse, List.length_cons]
  omega

/-- The tracked objects read while an object is built. -/
def dependencies (h : Handle) : List Handle := out.requires {} [h]

/-- A step of the walk that orders the bindings. -/
inductive Task
  | enter (target : Handle)
  | leave (target : Handle)

/-- Depth-first walk along the dependencies. An object is listed when it is left. -/
def visit : HandleSet → List Task → List Handle
  | _, [] => []
  | seen, .leave h :: tasks => h :: visit seen tasks
  | seen, .enter h :: tasks =>
    if h < out.heap.size ∧ h ∉ seen then
      visit (seen.insert h) ((out.dependencies h).map .enter ++ .leave h :: tasks)
    else visit seen tasks
termination_by seen tasks => (unseen out.heap.size seen, tasks.length)
decreasing_by
  · simp [Prod.lex_def]
  · rename_i hn
    exact Prod.Lex.left _ _ (unseen_insert_lt hn.1 hn.2)
  · simp [Prod.lex_def]

/-- The tracked objects in the order of their bindings: what an object needs comes first, cycles
apart. -/
def order : List Handle := out.visit {} (out.tracker.order.map .enter)

/-- The text of a piece where only the `bound` objects have their binding. -/
def pieceText (bound : HandleSet) : Piece → String
  | .text s => s
  | .ref _ h => if h ∈ bound then out.binding h else "undefined"

/-- The patch that a piece leaves to be done. -/
def patch? (bound : HandleSet) : Piece → Option String
  | .text _ => none
  | .ref path h => if h ∈ bound then none else some (path ++ " = " ++ out.binding h ++ ";")

def bindingLine (bound : HandleSet) (h : Handle) (pieces : List Piece) : String :=
  "export const " ++ out.binding h ++ " = " ++ String.join (pieces.map (out.pieceText bound)) ++ ";"

/-- The lines that bind the given objects in turn, with their definitions, and the patches they
leave. -/
def bindAll {m : Type → Type} [Monad m] (define : Handle → m (List Piece)) :
    HandleSet → List Handle → m (List String × List String)
  | _, [] => return ([], [])
  | bound, h :: rest => do
    let pieces ← define h
    let (lines, patches) ← bindAll define (bound.insert h) rest
    return (out.bindingLine bound h pieces :: lines, pieces.filterMap (out.patch? bound) ++ patches)

/-- The companion module: the bindings and the patches. -/
def companion : Except Fault (List String × List String) := out.bindAll out.define {} out.order

end Output

end Comptime
