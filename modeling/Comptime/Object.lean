import Comptime.Expr

/-! Composite compile-time values. Objects refer to each other by handle, so any graph of them,
cycles included, can be stored. -/
namespace Comptime

/-- Arguments noted on a generic type. Without arguments the entry takes those given when the type
is specialized. -/
structure Application where
  site : Generic
  args : Option (List Item)

inductive TypeKind
  /-- The type of absent items. -/
  | missing
  | undef
  | null
  | bool
  | num
  | str
  | list
  | listOf (element : Item)
  /-- The type of types. -/
  | type
  | anchor
  /-- What carries a feature with this anchor. -/
  | feature (anchor : Item)
  /-- Records with at least these feature anchors and fields. -/
  | object (features : List Item) (fields : Fields)
  /-- Describes no item until it is specialized. -/
  | generic (site : Generic)

/-- A type with the applications noted on it so far, the oldest first. -/
structure TypeValue where
  kind : TypeKind
  applications : List Application := []

namespace TypeValue

def generic? (t : TypeValue) : Option Generic :=
  match t.kind with
  | .generic site => some site
  | _ => none

/-- Notes arguments on a generic type. Other types take none. -/
def apply (t : TypeValue) (args : Option (List Item)) : TypeValue :=
  match t.generic? with
  | some site => { t with applications := t.applications ++ [⟨site, args⟩] }
  | none => t

def joined (items : List Item) : String := ", ".intercalate (items.map Item.text)

def applicationText (a : Application) : String :=
  match a.args with
  | some args => "[" ++ joined args ++ "]"
  | none => "[_]"

/-- A type as messages show it. -/
def text (t : TypeValue) : String :=
  match t.kind with
  | .missing => "missing"
  | .undef => "undef"
  | .null => "null"
  | .bool => "bool"
  | .num => "num"
  | .str => "str"
  | .list => "list"
  | .listOf element => "list<" ++ element.text ++ ">"
  | .type => "type"
  | .anchor => "anchor"
  | .feature anchor => "feature<" ++ anchor.text ++ ">"
  | .object _ fields =>
    "\x7b" ++ ", ".intercalate (fields.map fun f => f.1 ++ ": " ++ f.2.text) ++ "\x7d"
  | .generic site => site.name ++ String.join (t.applications.map applicationText)

end TypeValue

/-- A function together with the items its free identifiers stood for when it was made. -/
structure Closure where
  name : String
  params : List String
  body : List Stmt
  captures : Fields

inductive Object
  | seq (items : List Item)
  | function (closure : Closure)
  | type (type : TypeValue)
  /-- The key that ties features to their declaration. -/
  | anchor (name : String)
  | feature (name : String) (anchor : Item) (fields : Fields)
  | record (features : List Item) (fields : Fields)

namespace Object

def kindName : Object → String
  | seq _ => "sequence"
  | function _ => "function"
  | type _ => "type"
  | anchor _ => "anchor"
  | feature .. => "feature"
  | record .. => "object"

/-- Whether the object has a literal form that can stand in place of a reference. -/
def isInlinable : Object → Bool
  | seq _ | function _ => true
  | _ => false

def text : Object → String
  | seq items => "sequence of " ++ toString items.length
  | function f => "function " ++ f.name
  | type t => "type " ++ t.text
  | anchor name => "anchor " ++ name
  | feature name .. => "feature " ++ name
  | record _ fields => "object with " ++ toString fields.length ++ " fields"

/-- The item that member access by this name gives. -/
def member? (name : String) : Object → Option Item
  | record _ fields | feature _ _ fields => fields.lookup name
  | _ => none

end Object

end Comptime
