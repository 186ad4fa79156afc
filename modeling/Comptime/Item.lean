import Comptime.Text.Decimal
import Comptime.Text.Quoted

/-! Compile-time values. An item is a primitive, the handle of an object, or stands in for a value
that is missing: for good (`absent`) or until its slot or variable is known (`hole`). -/
namespace Comptime

/-- Names one object of a heap. Objects are told apart by handle only, never by their contents. -/
abbrev Handle := Nat

abbrev GroupId := Nat

abbrev VarId := Nat

abbrev GenericId := Nat

/-- The `slot`-th expression of a group. -/
structure SlotAddr where
  group : GroupId
  slot : Nat
deriving DecidableEq

/-- Where the value of a hole will come from. -/
inductive Placeholder
  | slot (addr : SlotAddr)
  | var (id : VarId)
deriving DecidableEq

inductive Item
  | undefined
  | null
  | bool (value : Bool)
  | num (value : Float)
  | str (value : String)
  | ref (target : Handle)
  | absent (reason : String)
  | hole (source : Placeholder)
deriving Inhabited

def showHandle (h : Handle) : String := "#" ++ toString h

def showGroup (g : GroupId) : String := "group" ++ toString g

def showVar (v : VarId) : String := "var" ++ toString v

def SlotAddr.text (a : SlotAddr) : String :=
  showGroup a.group ++ "[" ++ toString a.slot ++ "]"

def Placeholder.text : Placeholder → String
  | .slot a => a.text
  | .var v => showVar v

namespace Item

/-- An item as messages show it. -/
def text : Item → String
  | undefined => "undefined"
  | null => "null"
  | bool true => "true"
  | bool false => "false"
  | num x => Text.number "inf" x
  | str s => Text.shown s
  | ref h => showHandle h
  | absent reason => "<absent: " ++ reason ++ ">"
  | hole p => "<unresolved " ++ p.text ++ ">"

def ref? : Item → Option Handle
  | ref h => some h
  | _ => none

def isUnknown : Item → Bool
  | absent _ | hole _ => true
  | _ => false

/-- Primitives are always written in place. -/
def isPrimitive : Item → Bool
  | undefined | null | bool _ | num _ | str _ => true
  | _ => false

/-- Equality of items. Numbers compare as numbers do, so a NaN differs from itself and the two
zeros are equal. -/
def same : Item → Item → Bool
  | undefined, undefined => true
  | null, null => true
  | bool a, bool b => a == b
  | num a, num b => a == b
  | str a, str b => a == b
  | ref a, ref b => a == b
  | absent a, absent b => a == b
  | hole a, hole b => a == b
  | _, _ => false

end Item

/-- The handles among the given items, in order. -/
def refsOf (items : List Item) : List Handle := items.filterMap Item.ref?

theorem mem_refsOf {items : List Item} {h : Handle} : h ∈ refsOf items ↔ .ref h ∈ items := by
  rw [refsOf, List.mem_filterMap]
  constructor
  · rintro ⟨x, hx, he⟩
    cases x <;> cases he
    exact hx
  · exact fun hm => ⟨.ref h, hm, rfl⟩

/-- Named items, in order of declaration. A name may occur twice; the first entry counts. -/
abbrev Fields := List (String × Item)

end Comptime
