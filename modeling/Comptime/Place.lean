import Comptime.Code.Items
import Comptime.Object

/-! Children of objects and where they sit. `children` lists them in order of declaration;
`setChild?` replaces the one at a given place. -/
namespace Comptime

/-- Where a child sits inside its parent. -/
inductive Place
  | index (i : Nat)
  | field (name : String)
  | feature (i : Nat)
  | featureAnchor
  | featureField (name : String)
  | typeElement
  | typeAnchor
  | typeFeature (i : Nat)
  | typeField (name : String)
  /-- Argument `i` of the `entry`-th application of a type. -/
  | argument (entry i : Nat)
  | capture (name : String)
  /-- The `i`-th literal item of a function body. -/
  | bodyItem (i : Nat)
deriving DecidableEq

namespace Place

/-- Deferred children are read only when a function runs, never while their parent is built. -/
def isDeferred : Place → Bool
  | capture _ | bodyItem _ => true
  | _ => false

/-- A place as messages show it. -/
def text : Place → String
  | index i => "Index(" ++ toString i ++ ")"
  | field name => "Field(" ++ Text.shown name ++ ")"
  | feature i => "Feature(" ++ toString i ++ ")"
  | featureAnchor => "FeatureAnchor"
  | featureField name => "FeatureField(" ++ Text.shown name ++ ")"
  | typeElement => "TypeElement"
  | typeAnchor => "TypeAnchor"
  | typeFeature i => "TypeFeature(" ++ toString i ++ ")"
  | typeField name => "TypeField(" ++ Text.shown name ++ ")"
  | argument entry i =>
    "QualArg \x7b entry: " ++ toString entry ++ ", index: " ++ toString i ++ " \x7d"
  | capture name => "Capture(" ++ Text.shown name ++ ")"
  | bodyItem i => "BodyItem(" ++ toString i ++ ")"

end Place

/-- A child and its place. -/
abbrev Child := Place × Item

/-- Items with their positions, each position made into a place. -/
def indexed (place : Nat → Place) (items : List Item) : List Child :=
  items.zipIdx.map fun p => (place p.2, p.1)

def named (place : String → Place) (fields : Fields) : List Child :=
  fields.map fun f => (place f.1, f.2)

theorem map_snd_indexed (place : Nat → Place) (items : List Item) :
    (indexed place items).map Prod.snd = items := by
  simp [indexed, Function.comp_def]

theorem map_snd_named (place : String → Place) (fields : Fields) :
    (named place fields).map Prod.snd = fields.map Prod.snd := by
  simp [named, Function.comp_def]

def TypeKind.children : TypeKind → List Child
  | .listOf element => [(.typeElement, element)]
  | .feature key => [(.typeAnchor, key)]
  | .object features fields => indexed .typeFeature features ++ named .typeField fields
  | _ => []

def TypeValue.arguments (t : TypeValue) : List Child :=
  t.applications.zipIdx.flatMap fun p => indexed (.argument p.2) (p.1.args.getD [])

/-- The direct children of an object, in order of declaration. -/
def Object.children : Object → List Child
  | seq items => indexed .index items
  | function f => named .capture f.captures ++ indexed .bodyItem (Stmt.itemsAll f.body)
  | type t => t.kind.children ++ t.arguments
  | anchor _ => []
  | feature _ key fields => (.featureAnchor, key) :: named .featureField fields
  | record features fields => indexed .feature features ++ named .field fields

/-- Replaces the `i`-th item, if there is one. -/
def setNth? (items : List Item) (i : Nat) (x : Item) : Option (List Item) :=
  if i < items.length then some (items.set i x) else none

/-- Replaces the item of the first field of this name, if there is one. -/
def setNamed? (x : Item) (name : String) : Fields → Option Fields
  | [] => none
  | f :: fs => if f.1 = name then some ((f.1, x) :: fs) else (f :: ·) <$> setNamed? x name fs

def TypeKind.setChild? (x : Item) : TypeKind → Place → Option TypeKind
  | .listOf _, .typeElement => some (.listOf x)
  | .feature _, .typeAnchor => some (.feature x)
  | .object features fields, .typeFeature i => (.object · fields) <$> setNth? features i x
  | .object features fields, .typeField name => .object features <$> setNamed? x name fields
  | _, _ => none

def Application.setArgument? (x : Item) (a : Application) (i : Nat) : Option Application := do
  let args ← a.args
  let args ← setNth? args i x
  some { a with args := some args }

def TypeValue.setChild? (x : Item) (t : TypeValue) : Place → Option TypeValue
  | .argument entry i => do
    let a ← t.applications[entry]?
    let a ← a.setArgument? x i
    some { t with applications := t.applications.set entry a }
  | place => do
    let kind ← t.kind.setChild? x place
    some { t with kind }

/-- The object with the child at this place replaced; `none` if it has no such place. -/
def Object.setChild? (x : Item) : Object → Place → Option Object
  | seq items, .index i => seq <$> setNth? items i x
  | record features fields, .feature i => (record · fields) <$> setNth? features i x
  | record features fields, .field name => record features <$> setNamed? x name fields
  | feature name _ fields, .featureAnchor => some (feature name x fields)
  | feature name key fields, .featureField f => feature name key <$> setNamed? x f fields
  | function f, .capture name => do
    let captures ← setNamed? x name f.captures
    some (function { f with captures })
  | function f, .bodyItem i =>
    if i < (Stmt.itemsAll f.body).length then
      some (function { f with body := Stmt.setItemAll x f.body i })
    else none
  | type t, place => type <$> t.setChild? x place
  | _, _ => none

/-- Offers every child to `f`, in order. An answer replaces the child at that place. Counts the
answers. -/
def Object.replaceChildren (f : Item → Option Item) (o : Object) : Object × Nat :=
  o.children.foldl (fun acc child =>
    match f child.2 with
    | some x => ((acc.1.setChild? x child.1).getD acc.1, acc.2 + 1)
    | none => acc) (o, 0)

end Comptime
