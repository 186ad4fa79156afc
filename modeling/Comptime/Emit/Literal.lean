import Comptime.Fault

/-! Literals, property names and access paths of the emitted text. -/
namespace Comptime

/-- The literal of a primitive, and `none` for a reference. An unknown item cannot be written. -/
def Item.literal : Item → Except Fault (Option String)
  | undefined => .ok "undefined"
  | null => .ok "null"
  | bool true => .ok "true"
  | bool false => .ok "false"
  | num x => .ok (Text.number "Infinity" x)
  | str s => .ok (Text.quoted s)
  | ref _ => .ok none
  | absent reason => .error (.absent reason)
  | hole p => .error (.neverResolved (hole p))

def isNameStart (c : Char) : Bool := c.isAlpha || c == '_' || c == '$'

/-- A name that can be written without quotes; all its characters are ASCII. -/
def isIdentifier (name : String) : Bool :=
  match name.toList with
  | [] => false
  | c :: cs => isNameStart c && cs.all fun c => isNameStart c || c.isDigit

/-- The key of an object entry. -/
def propertyKey (name : String) : String :=
  if isIdentifier name then name else Text.quoted name

def propertyAccess (name : String) : String :=
  if isIdentifier name then "." ++ name else "[" ++ Text.quoted name ++ "]"

/-- The path from an object to the child at a place; deferred children have none. -/
def Place.accessor? : Place → Option String
  | index i => some ("[" ++ toString i ++ "]")
  | field name => some (propertyAccess name)
  | feature i => some (".__features[" ++ toString i ++ "]")
  | featureAnchor | typeAnchor => some ".anchor"
  | featureField name | typeField name => some (".fields" ++ propertyAccess name)
  | typeElement => some ".element"
  | typeFeature i => some (".features[" ++ toString i ++ "]")
  | argument entry i => some (".args[" ++ toString entry ++ "][" ++ toString i ++ "]")
  | capture _ | bodyItem _ => none

end Comptime
