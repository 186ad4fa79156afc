import Comptime.Text.DefaultIgnorable
import Comptime.Text.ExtendingMark
import Comptime.Text.Unprintable

/-! Quoted strings: the form shown in messages, and the form of JSON text. -/
namespace Comptime.Text

def hex (n : Nat) : List Char := Nat.toDigits 16 n

/-- A character of a shown string. What would be invisible, or would attach to the character before
it, is written by its code point. -/
def showChar (c : Char) : List Char :=
  match c with
  | '\x00' => ['\\', '0']
  | '\t' => ['\\', 't']
  | '\r' => ['\\', 'r']
  | '\n' => ['\\', 'n']
  | '"' => ['\\', '"']
  | '\\' => ['\\', '\\']
  | c =>
    if extendingMark.has c || defaultIgnorable.has c || unprintable.has c then
      ['\\', 'u', '\x7b'] ++ hex c.toNat ++ ['\x7d']
    else [c]

/-- A string as messages show it. -/
def shown (s : String) : String :=
  String.ofList ('"' :: s.toList.flatMap showChar ++ ['"'])

/-- A character of a JSON string. Only quotes, backslashes and controls below the space are
escaped. -/
def jsonChar (c : Char) : List Char :=
  match c with
  | '"' => ['\\', '"']
  | '\\' => ['\\', '\\']
  | '\x08' => ['\\', 'b']
  | '\x0c' => ['\\', 'f']
  | '\n' => ['\\', 'n']
  | '\r' => ['\\', 'r']
  | '\t' => ['\\', 't']
  | c =>
    if c.toNat < 0x20 then
      ['\\', 'u', '0', '0'] ++ List.replicate (2 - (hex c.toNat).length) '0' ++ hex c.toNat
    else [c]

/-- A string as JSON text. -/
def quoted (s : String) : String :=
  String.ofList ('"' :: s.toList.flatMap jsonChar ++ ['"'])

end Comptime.Text
