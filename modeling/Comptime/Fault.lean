import Comptime.Place

/-! Everything that can go wrong, and how it is worded. -/
namespace Comptime

inductive Fault
  /-- An item was needed that can never be had. -/
  | absent (reason : String)
  | neverResolved (item : Item)
  | selfReference (item : Item)
  /-- A sweep made no progress while this slot was open. -/
  | stuck (slot : String)
  | slotStillOpen (addr : SlotAddr)
  | noGroup (id : GroupId)
  | noSlot (addr : SlotAddr)
  | noSlotIn (label : String) (slot : Nat)
  | arity (name : String) (expected given : Nat)
  | notGeneric (type : TypeValue)
  | awaitsTwice (type : TypeValue) (entries : Nat)
  | noArguments (type : TypeValue)
  | notApplicable (type : TypeValue)
  | bodyNotType (name : String) (item : Item)
  | notType (item : Item)
  | operands (op : Op) (lhs rhs : Item)
  | noMember (obj : Item) (name : String)
  | notLowered (addr : SlotAddr)
  | notInline (kind : String) (target : Handle)
  | noBodyItem (target : Handle) (i : Nat)
  | noPlace (target : Handle) (place : Place)
  /-- A nesting without end was cut off. -/
  | tooDeep

/-- A fault as it is reported to users. -/
inductive Report
  | unknownItem (text : String)
  | compiler (category text : String)
  | internal (text : String)

namespace Report

/-- A short label for the kind of fault. -/
def category : Report → String
  | unknownItem _ => "unknown-item"
  | compiler category _ => category
  | internal _ => "internal"

def text : Report → String
  | unknownItem text => "unknown item: " ++ text
  | compiler category text => category ++ ": " ++ text
  | internal text => "Generic error: " ++ text

/-- The text to show next to the category, which is then not said twice. -/
def summary : Report → String
  | compiler _ text => text
  | report => report.text

end Report

namespace Fault

def report : Fault → Report
  | absent reason => .unknownItem reason
  | neverResolved item => .unknownItem (item.text ++ " never resolved")
  | selfReference item => .unknownItem (item.text ++ " refers to itself")
  | stuck slot => .compiler "unresolved" ("cannot resolve comptime expression " ++ slot)
  | slotStillOpen a =>
    .compiler "unresolved" ("run-time code reads " ++ a.text ++ " before it resolved")
  | noGroup id => .compiler "unknown-group" ("no expression group " ++ showGroup id)
  | noSlot a =>
    .compiler "unknown-group" (showGroup a.group ++ " has no slot " ++ toString a.slot)
  | noSlotIn label slot => .compiler "unknown-group" (label ++ " has no slot " ++ toString slot)
  | arity name expected given =>
    .compiler "arity" ("generic " ++ name ++ " expects " ++ toString expected ++
      " arguments, got " ++ toString given)
  | notGeneric t => .compiler "qualify" (t.text ++ " is not generic")
  | awaitsTwice t n =>
    .compiler "qualify" (t.text ++ " has " ++ toString n ++ " qualifications awaiting arguments")
  | noArguments t => .compiler "qualify" (t.text ++ " awaits arguments but none were given")
  | notApplicable t => .compiler "qualify" ("cannot apply arguments to " ++ t.text)
  | bodyNotType name item =>
    .compiler "type-mismatch"
      ("body of generic " ++ name ++ " produced " ++ item.text ++ ", not a type")
  | notType item => .compiler "type-mismatch" ("expected a type, found " ++ item.text)
  | operands op lhs rhs =>
    .compiler "type-mismatch" ("operator " ++ op.symbol ++ " does not apply to " ++ lhs.text ++
      " and " ++ rhs.text)
  | noMember obj name =>
    .compiler "unknown-member" (obj.text ++ " has no member `" ++ name ++ "`")
  | notLowered a =>
    .compiler "not-lowered" ("comptime reference " ++ a.text ++ " reached emission")
  | notInline kind h =>
    .compiler "cannot-convert" ("cannot convert untracked " ++ kind ++ " " ++ showHandle h ++
      " inline")
  | noBodyItem h i =>
    .internal ("function " ++ showHandle h ++ " has no body item " ++ toString i)
  | noPlace h place => .internal (showHandle h ++ " has no nested slot " ++ place.text)
  | tooDeep => .internal "nested too deeply"

end Fault

end Comptime
