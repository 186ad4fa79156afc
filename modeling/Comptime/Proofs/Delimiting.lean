import Comptime.Emit.Literal
import Comptime.Text.Json

/-! Texts that can be told from a longer text that starts with them: names and numbers, which end at
the first character of another class, and quoted strings, which end at their closing quote. -/
namespace Comptime

variable {s t rest rest' : List Char}

/-- Two texts of one class of characters, each followed by a character outside it, if any. -/
theorem append_inj_of_stop {p : Char → Bool} (hs : ∀ c ∈ s, p c) (ht : ∀ c ∈ t, p c)
    (hr : ∀ c ∈ rest.head?, p c = false) (hr' : ∀ c ∈ rest'.head?, p c = false)
    (h : s ++ rest = t ++ rest') : s = t ∧ rest = rest' := by
  have htake {l r : List Char} (hl : ∀ c ∈ l, p c) (hr : ∀ c ∈ r.head?, p c = false) :
      (l ++ r).takeWhile p = l := by
    rw [List.takeWhile_append_of_pos hl]
    cases r with
    | nil => simp
    | cons c r => simp [hr c rfl]
  have hst : s = t := by rw [← htake hs hr, h, htake ht hr']
  subst hst
  exact ⟨rfl, List.append_cancel_left h⟩

def isNameChar (c : Char) : Bool := isNameStart c || c.isDigit

theorem isNameChar_of_isIdentifier {n : String} (hn : isIdentifier n) :
    ∀ c ∈ n.toList, isNameChar c := by
  unfold isIdentifier at hn
  split at hn
  · cases hn
  · rename_i c cs hcs
    simp only [Bool.and_eq_true, List.all_eq_true] at hn
    rw [hcs]
    exact List.forall_mem_cons.mpr ⟨by simp [isNameChar, hn.1], hn.2⟩

theorem toDigits_append_inj {i j : Nat} (hr : ∀ c ∈ rest.head?, c.isDigit = false)
    (hr' : ∀ c ∈ rest'.head?, c.isDigit = false)
    (h : Nat.toDigits 10 i ++ rest = Nat.toDigits 10 j ++ rest') : i = j ∧ rest = rest' := by
  have hdigit (n : Nat) : ∀ c ∈ Nat.toDigits 10 n, c.isDigit := fun c hc =>
    Nat.isDigit_of_mem_toDigits (by decide) (by decide) hc
  obtain ⟨hij, hrest⟩ := append_inj_of_stop (hdigit i) (hdigit j) hr hr' h
  have hvalue := congrArg (Nat.ofDigitChars 10 · 0) hij
  simp only [Nat.ofDigitChars_ten_toDigits] at hvalue
  exact ⟨hvalue, hrest⟩

namespace Text

variable {c : Char}

/-- A character as it is spelled in JSON text. -/
def jsonUnit (c : Char) : JsonUnit :=
  if 0x20 ≤ c.toNat ∨ c ∈ ['\x08', '\x0c', '\n', '\r', '\t'] then .char c else .escape c.toNat

/-- Reading the text gives the unit and goes on with the rest. -/
def Json.Begins (cs : List Char) (unit : JsonUnit) (rest : List Char) : Prop :=
  Json.readString cs = (Json.readString rest).map fun p => (unit :: p.1, p.2)

theorem Json.begins_short {e : Char} (he : e ≠ 'u') (hc : Json.shortEscape? e = some c) :
    Json.Begins ('\\' :: e :: rest) (.char c) rest := by
  rw [Json.Begins, Json.readString, hc]
  · cases Json.readString rest <;> rfl
  · exact fun _ _ _ _ _ hu _ => he hu

theorem Json.begins_escape {a b : Char} {n : Nat} (hn : Json.hex4? '0' '0' a b = some n) :
    Json.Begins ('\\' :: 'u' :: '0' :: '0' :: a :: b :: rest) (.escape n) rest := by
  rw [Json.Begins, Json.readString, hn]
  cases Json.readString rest <;> rfl

theorem Json.begins_char (hq : c ≠ '"') (hb : c ≠ '\\') (hc : 0x20 ≤ c.toNat) :
    Json.Begins (c :: rest) (.char c) rest := by
  have hplain : (c == '\\' || decide (c.toNat < 0x20)) = false := by simp [hb, hc]
  rw [Json.Begins, Json.readString]
  · rw [hplain]
    cases Json.readString rest <;> rfl
  · exact hq
  · exact fun _ _ _ _ _ h _ => hb h
  · exact fun _ _ h _ => hb h

/-- The two digits of a control character. -/
theorem hex_two : ∀ n < 0x20,
    List.replicate (2 - (hex n).length) '0' ++ hex n =
        [if n < 0x10 then '0' else '1', Nat.digitChar (n % 0x10)] ∧
      Json.hex4? '0' '0' (if n < 0x10 then '0' else '1') (Nat.digitChar (n % 0x10)) = some n := by
  decide

/-- The text of a character reads as that character. -/
theorem begins_jsonChar (c : Char) (rest : List Char) :
    Json.Begins (jsonChar c ++ rest) (jsonUnit c) rest := by
  unfold jsonChar
  split
  case h_8 hq hb h1 h2 h3 h4 h5 =>
    split
    · rename_i hlt
      have hunit : jsonUnit c = .escape c.toNat := by
        rw [jsonUnit, if_neg]
        simp only [List.mem_cons, List.not_mem_nil, or_false, not_or]
        exact ⟨Nat.not_le.mpr hlt, h1, h2, h3, h4, h5⟩
      obtain ⟨hdigits, hvalue⟩ := hex_two c.toNat hlt
      rw [List.append_assoc, List.append_assoc, ← List.append_assoc _ _ rest, hdigits, hunit]
      exact Json.begins_escape hvalue
    · rename_i hle
      rw [jsonUnit, if_pos (.inl (Nat.le_of_not_lt hle))]
      exact Json.begins_char hq hb (Nat.le_of_not_lt hle)
  all_goals exact Json.begins_short (by decide) rfl

/-- What is quoted reads as it was. -/
theorem readString_flatMap (s rest : List Char) :
    Json.readString (s.flatMap jsonChar ++ '"' :: rest) = some (s.map jsonUnit, rest) := by
  induction s with
  | nil => rfl
  | cons c s ih =>
    rw [List.flatMap_cons, List.append_assoc, begins_jsonChar, ih]
    rfl

theorem decode_map_jsonUnit (s : List Char) : JsonString.decode (s.map jsonUnit) = some s := by
  induction s with
  | nil => rfl
  | cons c s ih =>
    rw [List.map_cons, jsonUnit]
    split
    · rw [JsonString.decode, ih]
      rfl
    · rename_i h
      have hlt : c.toNat < 0xd800 := by grind
      unfold JsonString.decode
      rw [if_pos (.inl hlt), ih, Char.ofNat_toNat]
      rfl

/-- A string can be told from its JSON text, whatever follows. -/
theorem quoted_append_inj {s t : String}
    (h : (quoted s).toList ++ rest = (quoted t).toList ++ rest') : s = t ∧ rest = rest' := by
  have hread (u : String) (r : List Char) :
      Json.readString ((quoted u).toList ++ r).tail = some (u.toList.map jsonUnit, r) := by
    rw [quoted, String.toList_ofList]
    simpa using readString_flatMap u.toList r
  have hst : some (s.toList.map jsonUnit, rest) = some (t.toList.map jsonUnit, rest') := by
    rw [← hread s rest, h, hread t rest']
  simp only [Option.some.injEq, Prod.mk.injEq] at hst
  have hdecode := congrArg JsonString.decode hst.1
  rw [decode_map_jsonUnit, decode_map_jsonUnit] at hdecode
  exact ⟨String.toList_inj.mp (Option.some.inj hdecode), hst.2⟩

end Text

end Comptime
