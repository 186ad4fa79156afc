/-! JSON text. Reading keeps strings as they are spelled, because a `\u` escape that is half of a
pair is only a fault where the string is used. Numbers keep no value. -/
namespace Comptime.Text

/-- A character of a string, or a `\u` escape. -/
inductive JsonUnit
  | char (c : Char)
  | escape (unit : Nat)

abbrev JsonString := List JsonUnit

inductive Json
  | null
  | bool (value : Bool)
  | number
  | string (value : JsonString)
  | array (elements : List Json)
  | object (members : List (JsonString × Json))

namespace JsonString

/-- The text of a string. An escape above U+FFFF is a pair, and half a pair stands for nothing. -/
def decode : JsonString → Option (List Char)
  | [] => some []
  | .char c :: rest => (c :: ·) <$> decode rest
  | .escape hi :: rest =>
    if hi < 0xd800 ∨ 0xdfff < hi then (Char.ofNat hi :: ·) <$> decode rest
    else
      match rest with
      | .escape lo :: rest =>
        if hi < 0xdc00 ∧ 0xdc00 ≤ lo ∧ lo ≤ 0xdfff then
          (Char.ofNat (0x10000 + (hi - 0xd800) * 0x400 + (lo - 0xdc00)) :: ·) <$> decode rest
        else none
      | _ => none

def text? (s : JsonString) : Option String := String.ofList <$> decode s

end JsonString

namespace Json

def isBlank (c : Char) : Bool := c == ' ' || c == '\t' || c == '\n' || c == '\r'

def skip (cs : List Char) : List Char := cs.dropWhile isBlank

def hexDigit? (c : Char) : Option Nat :=
  if '0' ≤ c ∧ c ≤ '9' then some (c.toNat - '0'.toNat)
  else if 'a' ≤ c ∧ c ≤ 'f' then some (c.toNat - 'a'.toNat + 10)
  else if 'A' ≤ c ∧ c ≤ 'F' then some (c.toNat - 'A'.toNat + 10)
  else none

def hex4? (a b c d : Char) : Option Nat := do
  let a ← hexDigit? a
  let b ← hexDigit? b
  let c ← hexDigit? c
  let d ← hexDigit? d
  some (a * 0x1000 + b * 0x100 + c * 0x10 + d)

/-- The character of a short escape. -/
def shortEscape? : Char → Option Char
  | '"' => some '"'
  | '\\' => some '\\'
  | '/' => some '/'
  | 'b' => some '\x08'
  | 'f' => some '\x0c'
  | 'n' => some '\n'
  | 'r' => some '\r'
  | 't' => some '\t'
  | _ => none

/-- A string after its opening quote, and what follows it. -/
def readString : List Char → Option (JsonString × List Char)
  | [] => none
  | '"' :: cs => some ([], cs)
  | '\\' :: 'u' :: a :: b :: c :: d :: cs => do
    let unit ← hex4? a b c d
    let (s, cs) ← readString cs
    some (.escape unit :: s, cs)
  | '\\' :: e :: cs => do
    let c ← shortEscape? e
    let (s, cs) ← readString cs
    some (.char c :: s, cs)
  | c :: cs =>
    if c == '\\' || c.toNat < 0x20 then none
    else do
      let (s, cs) ← readString cs
      some (.char c :: s, cs)

/-- Drops one digit or more. -/
def digits? : List Char → Option (List Char)
  | c :: cs => if c.isDigit then some (cs.dropWhile Char.isDigit) else none
  | [] => none

def exponent? : List Char → Option (List Char)
  | e :: sign :: cs =>
    if e == 'e' || e == 'E' then
      if sign == '+' || sign == '-' then digits? cs else digits? (sign :: cs)
    else some (e :: sign :: cs)
  | [e] => if e == 'e' || e == 'E' then none else some [e]
  | [] => some []

def fraction? : List Char → Option (List Char)
  | '.' :: cs => digits? cs
  | cs => some cs

/-- What follows a number. A number of two digits or more does not start with zero. -/
def number? (cs : List Char) : Option (List Char) := do
  let cs := match cs with
    | '-' :: cs => cs
    | cs => cs
  let cs ← match cs with
    | '0' :: c :: cs => if c.isDigit then none else some (c :: cs)
    | cs => digits? cs
  exponent? (← fraction? cs)

mutual

/-- The value at the front of the text, and what follows it. No value nests deeper than the text is
long. -/
def readValue : Nat → List Char → Option (Json × List Char)
  | 0, _ => none
  | depth + 1, cs =>
    match skip cs with
    | 'n' :: 'u' :: 'l' :: 'l' :: cs => some (.null, cs)
    | 't' :: 'r' :: 'u' :: 'e' :: cs => some (.bool true, cs)
    | 'f' :: 'a' :: 'l' :: 's' :: 'e' :: cs => some (.bool false, cs)
    | '"' :: cs => do
      let (s, cs) ← readString cs
      some (.string s, cs)
    | '[' :: cs =>
      match skip cs with
      | ']' :: cs => some (.array [], cs)
      | cs => do
        let (vs, cs) ← readElements depth cs
        some (.array vs, cs)
    | '\x7b' :: cs =>
      match skip cs with
      | '\x7d' :: cs => some (.object [], cs)
      | cs => do
        let (ms, cs) ← readMembers depth cs
        some (.object ms, cs)
    | cs => do
      let cs ← number? cs
      some (.number, cs)

def readElements : Nat → List Char → Option (List Json × List Char)
  | 0, _ => none
  | depth + 1, cs => do
    let (v, cs) ← readValue depth cs
    match skip cs with
    | ',' :: cs =>
      let (vs, cs) ← readElements depth cs
      some (v :: vs, cs)
    | ']' :: cs => some ([v], cs)
    | _ => none

def readMembers : Nat → List Char → Option (List (JsonString × Json) × List Char)
  | 0, _ => none
  | depth + 1, cs =>
    match skip cs with
    | '"' :: cs => do
      let (key, cs) ← readString cs
      match skip cs with
      | ':' :: cs =>
        let (v, cs) ← readValue depth cs
        match skip cs with
        | ',' :: cs =>
          let (ms, cs) ← readMembers depth cs
          some ((key, v) :: ms, cs)
        | '\x7d' :: cs => some ([(key, v)], cs)
        | _ => none
      | _ => none
    | _ => none

end

/-- Reads a text that is one JSON value. -/
def parse? (text : String) : Option Json := do
  let (v, cs) ← readValue (2 * text.length + 2) text.toList
  if (skip cs).isEmpty then some v else none

/-- The values of the named fields of a structure. It is written as an object, where other keys are
skipped and none of these may occur twice, or as an array of the leading fields. -/
def fields? (names : List String) : Json → Option (List (Option Json))
  | array vs =>
    if vs.length ≤ names.length then
      some (vs.map some ++ List.replicate (names.length - vs.length) none)
    else none
  | object ms => do
    let ms ← ms.mapM fun m => (·, m.2) <$> JsonString.text? m.1
    if names.any fun name => 1 < ms.countP fun m => m.1 == name then none
    else some (names.map fun name => ms.lookup name)
  | _ => none

/-- A field that takes a default where it is not given. -/
def field? {α : Type} (read : Json → Option α) (default : α) : Option Json → Option α
  | some v => read v
  | none => some default

def string? : Json → Option String
  | string s => JsonString.text? s
  | _ => none

def bool? : Json → Option Bool
  | bool b => some b
  | _ => none

end Json

end Comptime.Text
