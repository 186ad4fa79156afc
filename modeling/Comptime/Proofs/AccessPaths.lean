import Comptime.Proofs.Delimiting
import Comptime.Proofs.Edges

/-! Access paths. A path is written as its steps one after the other, a property by its name or by
its name in quotes and an element by its number. Whatever the names are, the steps can be read off
the text, so different paths are written differently. -/
namespace Comptime

variable {rest rest' : List Char}

section Keys

/-- One step from a value to a part of it: to a property or to an element. -/
inductive Key
  | name (name : String)
  | index (i : Nat)

/-- How a step is written. -/
def Key.chars : Key → List Char
  | name n => (propertyAccess n).toList
  | index i => '[' :: Nat.toDigits 10 i ++ [']']

/-- How a path is written. -/
def keyChars (keys : List Key) : List Char := keys.flatMap Key.chars

theorem propertyAccess_of_isIdentifier {n : String} (hn : isIdentifier n) :
    propertyAccess n = "." ++ n := if_pos hn

theorem Key.chars_name_of_isIdentifier {n : String} (hn : isIdentifier n) :
    (name n).chars = '.' :: n.toList := by
  simp [chars, propertyAccess_of_isIdentifier hn]

theorem Key.chars_name_of_not {n : String} (hn : isIdentifier n = false) :
    (name n).chars = '[' :: (Text.quoted n).toList ++ [']'] := by
  simp [chars, propertyAccess, hn]

/-- What follows a step starts another one or is empty. -/
def StepStart (rest : List Char) : Prop := ∀ c ∈ rest.head?, c = '.' ∨ c = '['

theorem Key.exists_chars (k : Key) : ∃ c cs, k.chars = c :: cs ∧ (c = '.' ∨ c = '[') := by
  cases k with
  | name n =>
    cases hn : isIdentifier n with
    | true => exact ⟨_, _, chars_name_of_isIdentifier hn, .inl rfl⟩
    | false => exact ⟨_, _, chars_name_of_not hn, .inr rfl⟩
  | index i => exact ⟨_, _, rfl, .inr rfl⟩

theorem stepStart_keyChars (keys : List Key) : StepStart (keyChars keys) := by
  cases keys with
  | nil => rintro _ ⟨⟩
  | cons k keys =>
    obtain ⟨c, cs, hk, hc⟩ := k.exists_chars
    rw [keyChars, List.flatMap_cons, hk]
    rintro _ ⟨⟩
    exact hc

theorem StepStart.stops (h : StepStart rest) {p : Char → Bool} (hdot : p '.' = false)
    (hbracket : p '[' = false) : ∀ c ∈ rest.head?, p c = false := by
  intro c hc
  rcases h c hc with rfl | rfl
  · exact hdot
  · exact hbracket

/-- A quoted name is no number. -/
theorem quoted_ne_toDigits {n : String} {i : Nat} :
    (Text.quoted n).toList ++ rest ≠ Nat.toDigits 10 i ++ rest' := by
  intro h
  obtain ⟨c, cs, hi⟩ := List.exists_cons_of_ne_nil (Nat.toDigits_ne_nil (n := i) (b := 10))
  have hmem : c ∈ Nat.toDigits 10 i := hi ▸ List.mem_cons_self
  have hc : c.isDigit := Nat.isDigit_of_mem_toDigits (by decide) (by decide) hmem
  rw [hi, Text.quoted, String.toList_ofList] at h
  obtain rfl : '"' = c := (List.cons.inj h).1
  cases hc

/-- The first step of a path can be told from the text. -/
theorem Key.chars_append_inj {k l : Key} (hr : StepStart rest) (hr' : StepStart rest')
    (h : k.chars ++ rest = l.chars ++ rest') : k = l ∧ rest = rest' := by
  cases k with
  | name n =>
    cases l with
    | name m =>
      cases hn : isIdentifier n <;> cases hm : isIdentifier m
      · rw [chars_name_of_not hn, chars_name_of_not hm] at h
        simp only [List.cons_append, List.append_assoc, List.cons.injEq, true_and] at h
        obtain ⟨rfl, hrest⟩ := Text.quoted_append_inj h
        exact ⟨rfl, (List.cons.inj hrest).2⟩
      · rw [chars_name_of_not hn, chars_name_of_isIdentifier hm] at h
        cases (List.cons.inj h).1
      · rw [chars_name_of_isIdentifier hn, chars_name_of_not hm] at h
        cases (List.cons.inj h).1
      · rw [chars_name_of_isIdentifier hn, chars_name_of_isIdentifier hm] at h
        obtain ⟨hnm, hrest⟩ := append_inj_of_stop (isNameChar_of_isIdentifier hn)
          (isNameChar_of_isIdentifier hm) (hr.stops rfl rfl) (hr'.stops rfl rfl) (List.cons.inj h).2
        exact ⟨congrArg name (String.toList_inj.mp hnm), hrest⟩
    | index j =>
      cases hn : isIdentifier n
      · rw [chars_name_of_not hn, chars] at h
        simp only [List.cons_append, List.append_assoc, List.cons.injEq, true_and] at h
        exact absurd h quoted_ne_toDigits
      · rw [chars_name_of_isIdentifier hn] at h
        cases (List.cons.inj h).1
  | index i =>
    cases l with
    | name m =>
      cases hm : isIdentifier m
      · rw [chars_name_of_not hm, chars] at h
        simp only [List.cons_append, List.append_assoc, List.cons.injEq, true_and] at h
        exact absurd h.symm quoted_ne_toDigits
      · rw [chars_name_of_isIdentifier hm] at h
        cases (List.cons.inj h).1
    | index j =>
      simp only [chars, List.cons_append, List.append_assoc, List.cons.injEq, true_and] at h
      have hclose {r : List Char} : ∀ c ∈ (']' :: r).head?, c.isDigit = false := by
        rintro _ ⟨⟩
        rfl
      obtain ⟨rfl, hrest⟩ := toDigits_append_inj hclose hclose h
      exact ⟨rfl, (List.cons.inj hrest).2⟩

/-- Different paths are written differently. -/
theorem keyChars_inj {ks ls : List Key} (h : keyChars ks = keyChars ls) : ks = ls := by
  induction ks generalizing ls with
  | nil =>
    cases ls with
    | nil => rfl
    | cons l ls =>
      obtain ⟨c, cs, hl, -⟩ := l.exists_chars
      rw [keyChars, keyChars, List.flatMap_cons, hl] at h
      cases h
  | cons k ks ih =>
    cases ls with
    | nil =>
      obtain ⟨c, cs, hk, -⟩ := k.exists_chars
      rw [keyChars, keyChars, List.flatMap_cons, hk] at h
      cases h
    | cons l ls =>
      rw [keyChars, keyChars, List.flatMap_cons, List.flatMap_cons] at h
      obtain ⟨rfl, hrest⟩ :=
        Key.chars_append_inj (stepStart_keyChars ks) (stepStart_keyChars ls) h
      rw [ih hrest]

end Keys

section Places

/-- The steps from an object to the child at a place, as its definition lays them out. -/
def Place.keys : Place → List Key
  | index i => [.index i]
  | field n => [.name n]
  | feature i => [.name "__features", .index i]
  | featureAnchor | typeAnchor => [.name "anchor"]
  | featureField n | typeField n => [.name "fields", .name n]
  | typeElement => [.name "element"]
  | typeFeature i => [.name "features", .index i]
  | argument entry i => [.name "args", .index entry, .index i]
  | capture _ | bodyItem _ => []

theorem Place.accessor_chars (p : Place) : (p.accessor?.getD "").toList = keyChars p.keys := by
  cases p <;>
    simp (disch := decide) [accessor?, keys, keyChars, Key.chars, propertyAccess_of_isIdentifier]

theorem pathText_chars (path : List Place) :
    (Output.pathText path).toList = keyChars (path.flatMap Place.keys) := by
  induction path with
  | nil => rfl
  | cons p path ih =>
    rw [Output.pathText, String.toList_append, ih, p.accessor_chars]
    simp [keyChars]

end Places

end Comptime
