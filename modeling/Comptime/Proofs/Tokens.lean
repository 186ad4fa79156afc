import Comptime.Emit.Modules
import Comptime.Proofs.Delimiting
import Mathlib.Data.List.Forall2

/-! The tokens of run-time code. Words are always kept apart by marks, so the tokens can be told
from the text; this is so for all code that can be written as it stands, with names that are
identifiers and literals that are words or strings. -/
namespace Comptime

inductive Token
  | word (name : String)
  | str (value : String)
  | mark (c : Char)

/-- Puts tokens in front of those that follow. -/
abbrev Printer := List Token → List Token

namespace Token

def text : Token → String
  | word name => name
  | str s => Text.quoted s
  | mark c => String.singleton c

def isWord : Token → Bool
  | word _ => true
  | _ => false

def isStr : Token → Bool
  | str _ => true
  | _ => false

/-- What a token begins with tells its kind. -/
def isProper : Token → Bool
  | word name => isIdentifier name
  | str _ => true
  | mark c => !isNameChar c && c != '"'

def joined (ts : List Token) : String := String.join (ts.map text)

/-- Proper tokens, and no word next to another one. -/
def isClear : List Token → Bool
  | [] => true
  | t :: ts => t.isProper && !(t.isWord && ts.head?.any isWord) && isClear ts

def marks (s : String) : Printer := (s.toList.map mark ++ ·)

/-- Printers one after the other, with a separator before each of them. -/
def preceded (separator : String) : List Printer → Printer
  | [], k => k
  | p :: ps, k => marks separator (p (preceded separator ps k))

/-- Printers one after the other, with a separator between each two of them. -/
def separated (separator : String) : List Printer → Printer
  | [], k => k
  | p :: ps, k => p (preceded separator ps k)

section Lexing

variable {t u : Token} {ts us : List Token} {r s : List Char}

@[simp]
theorem joined_nil : joined [] = "" := rfl

@[simp]
theorem joined_cons : joined (t :: ts) = t.text ++ joined ts := by
  simp [joined]

theorem first_char (ht : t.isProper) : ∃ c cs, t.text.toList = c :: cs ∧
    isNameChar c = t.isWord ∧ (c == '"') = t.isStr := by
  cases t with
  | word name =>
    cases he : name.toList with
    | nil => simp [isProper, isIdentifier, he] at ht
    | cons c cs =>
      have hc : isNameChar c := isNameChar_of_isIdentifier ht c (by simp [he])
      have hq : c ≠ '"' := by
        rintro rfl
        exact absurd hc (by decide)
      exact ⟨c, cs, he, hc, by simp [isStr, hq]⟩
  | str s =>
    exact ⟨'"', s.toList.flatMap Text.jsonChar ++ ['"'], by simp [text, Text.quoted], rfl, rfl⟩
  | mark c =>
    simp only [isProper, Bool.and_eq_true, Bool.not_eq_true', bne_iff_ne] at ht
    exact ⟨c, [], by simp [text], ht.1, by simp [isStr, ht.2]⟩

/-- A token can be told from its text, if what follows a word is not part of a name. -/
theorem text_append_inj (ht : t.isProper) (hu : u.isProper)
    (hr : t.isWord → ∀ c ∈ r.head?, isNameChar c = false)
    (hs : u.isWord → ∀ c ∈ s.head?, isNameChar c = false)
    (h : t.text.toList ++ r = u.text.toList ++ s) : t = u ∧ r = s := by
  obtain ⟨c, cs, hc, hword, hstr⟩ := first_char ht
  obtain ⟨d, ds, hd, hword', hstr'⟩ := first_char hu
  have hcd : c = d := by
    rw [hc, hd] at h
    exact (List.cons.inj h).1
  subst hcd
  cases t with
  | word name =>
    cases u with
    | word name' =>
      obtain ⟨hn, hrest⟩ := append_inj_of_stop (isNameChar_of_isIdentifier ht)
        (isNameChar_of_isIdentifier hu) (hr rfl) (hs rfl) h
      exact ⟨congrArg word (String.toList_inj.mp hn), hrest⟩
    | str | mark => cases hword.symm.trans hword'
  | str x =>
    cases u with
    | str y =>
      obtain ⟨rfl, hrest⟩ := Text.quoted_append_inj h
      exact ⟨rfl, hrest⟩
    | word | mark => cases hstr.symm.trans hstr'
  | mark a =>
    cases u with
    | mark b => simpa [text] using h
    | word => cases hword.symm.trans hword'
    | str => cases hstr.symm.trans hstr'

theorem head_joined (ht : isClear ts) (hw : ts.head?.any isWord = false) :
    ∀ c ∈ (joined ts).toList.head?, isNameChar c = false := by
  cases ts with
  | nil => simp
  | cons t ts =>
    simp only [isClear, Bool.and_eq_true] at ht
    obtain ⟨c, cs, hc, hword, -⟩ := first_char ht.1.1
    simp only [joined_cons, String.toList_append, hc, List.cons_append, List.head?_cons,
      Option.mem_def, Option.some.injEq, forall_eq']
    exact hword.trans hw

/-- Tokens can be told from the text that they make. -/
theorem joined_inj (ht : isClear ts) (hu : isClear us) (h : joined ts = joined us) : ts = us := by
  induction ts generalizing us with
  | nil =>
    cases us with
    | nil => rfl
    | cons u us =>
      simp only [isClear, Bool.and_eq_true] at hu
      obtain ⟨c, cs, hc, -⟩ := first_char hu.1.1
      have htext := congrArg String.toList h
      simp [hc] at htext
  | cons t ts ih =>
    cases us with
    | nil =>
      simp only [isClear, Bool.and_eq_true] at ht
      obtain ⟨c, cs, hc, -⟩ := first_char ht.1.1
      have htext := congrArg String.toList h
      simp [hc] at htext
    | cons u us =>
      simp only [isClear, Bool.and_eq_true, Bool.not_eq_true'] at ht hu
      have htext := congrArg String.toList h
      rw [joined_cons, joined_cons, String.toList_append, String.toList_append] at htext
      obtain ⟨rfl, hrest⟩ := text_append_inj ht.1.1 hu.1.1
        (fun hw => head_joined ht.2 (by simpa [hw] using ht.1.2))
        (fun hw => head_joined hu.2 (by simpa [hw] using hu.1.2)) htext
      rw [ih ht.2 hu.2 (String.toList_inj.mp hrest)]

end Lexing

section Spelling

variable {ts k : List Token} {p q : Printer} {s t m : String}

/-- The printer writes the text, in tokens that can be told apart. -/
structure Spells (s : String) (p : Printer) : Prop where
  joined_eq : ∀ k, joined (p k) = s ++ joined k
  clear : ∀ k, isClear k → k.head?.any isWord = false → isClear (p k)

/-- A text of marks only. -/
def isMarks (m : String) : Bool := !m.toList.isEmpty && m.toList.all fun c => (mark c).isProper

theorem joined_marks : joined (marks m k) = m ++ joined k := by
  have h (cs : List Char) : joined (cs.map mark ++ k) = String.ofList cs ++ joined k := by
    induction cs with
    | nil => simp
    | cons c cs ih => simp [ih, text, ← String.append_assoc]
  simp [marks, h]

theorem isClear_marks (hm : isMarks m) (hk : isClear k) : isClear (marks m k) := by
  have h (cs : List Char) (hcs : ∀ c ∈ cs, (mark c).isProper) : isClear (cs.map mark ++ k) := by
    induction cs with
    | nil => exact hk
    | cons c cs ih =>
      rw [List.forall_mem_cons] at hcs
      simp [isClear, isWord, hcs.1, ih hcs.2]
  simp only [isMarks, Bool.and_eq_true, List.all_eq_true] at hm
  exact h _ hm.2

theorem head_marks (hm : isMarks m) : (marks m k).head?.any isWord = false := by
  cases hc : m.toList with
  | nil => simp [isMarks, hc] at hm
  | cons c cs => simp [marks, hc, isWord]

namespace Spells

theorem token {t : Token} (ht : t.isProper) : Spells t.text (t :: ·) where
  joined_eq k := joined_cons
  clear k hk hw := by simp [isClear, ht, hk, hw]

theorem before (hq : Spells t q) (hm : isMarks m) : Spells (m ++ t) fun k => marks m (q k) where
  joined_eq k := by rw [joined_marks, hq.joined_eq, String.append_assoc]
  clear k hk hw := isClear_marks hm (hq.clear k hk hw)

theorem after (hp : Spells s p) (hm : isMarks m) : Spells (s ++ m) fun k => p (marks m k) where
  joined_eq k := by rw [hp.joined_eq, joined_marks, String.append_assoc]
  clear k hk _ := hp.clear _ (isClear_marks hm hk) (head_marks hm)

theorem between (hp : Spells s p) (hq : Spells t q) (hm : isMarks m) :
    Spells (s ++ m ++ t) fun k => p (marks m (q k)) where
  joined_eq k := by rw [hp.joined_eq, joined_marks, hq.joined_eq, String.append_assoc,
    String.append_assoc]
  clear k hk hw := hp.clear _ (isClear_marks hm (hq.clear k hk hw)) (head_marks hm)

theorem separated {ss : List String} {ps : List Printer} (h : List.Forall₂ Spells ss ps)
    (hm : isMarks m) : Spells (m.intercalate ss) (separated m ps) := by
  cases h with
  | nil => exact ⟨fun k => by simp [Token.separated], fun k hk _ => hk⟩
  | @cons s p ss ps hp h =>
    -- by induction on what follows the first part, whichever that is
    induction h generalizing s p with
    | nil =>
      rw [String.intercalate_singleton]
      exact hp
    | @cons t q ss ps hq _ ih =>
      have hrest := hp.between (ih hq) hm
      rwa [String.intercalate_cons_cons]

end Spells

end Spelling

end Token

open Token

/-- The literal of a primitive as a token. Numbers are not among them. -/
def Item.token? : Item → Option Token
  | undefined => some (.word "undefined")
  | null => some (.word "null")
  | bool true => some (.word "true")
  | bool false => some (.word "false")
  | str s => some (.str s)
  | _ => none

mutual

/-- The tokens of a piece of code, in front of those that follow. -/
def Code.print : Code → Printer
  | .lit x, k => x.token?.toList ++ k
  | .comptime _, k => k
  | .ident name, k => .word name :: k
  | .call c args, k => c.print (marks "(" (separated ", " (Code.printers args) (marks ")" k)))
  | .member o name, k => o.print (marks "." (.word name :: k))
  | .index o key, k => o.print (marks "[" (key.print (marks "]" k)))
  | .array es, k => marks "[" (separated ", " (Code.printers es) (marks "]" k))
  | .binary op l r, k =>
    marks "(" (l.print (marks (" " ++ op.symbol ++ " ") (r.print (marks ")" k))))
  | .lambda params body, k =>
    marks "((" (separated ", " (params.map fun p => (.word p :: ·))
      (marks ") => \x7b " (separated " " (Stmt.printers body) (marks " \x7d)" k))))

def Code.printers : List Code → List Printer
  | [] => []
  | c :: cs => c.print :: Code.printers cs

def Stmt.print : Stmt → Printer
  | .letBind name c, k =>
    .word "let" :: marks " " (.word name :: marks " = " (c.print (marks ";" k)))
  | .exportConst name c, k =>
    .word "export" :: marks " " (.word "const" :: marks " " (.word name ::
      marks " = " (c.print (marks ";" k))))
  | .expr c, k => c.print (marks ";" k)
  | .ret c, k => .word "return" :: marks " " (c.print (marks ";" k))
  | .retVoid, k => .word "return" :: marks ";" k

def Stmt.printers : List Stmt → List Printer
  | [] => []
  | s :: ss => s.print :: Stmt.printers ss

end

/-- The words that are literals. -/
def literals : List String := ["undefined", "null", "true", "false"]

/-- What no identifier may be, since it would read as something else. -/
def reserved : List String := "return" :: literals

mutual

/-- The code can be written as it stands: no slot is left in it, its names are identifiers, and its
literals are words or strings. -/
def Code.isPlain : Code → Bool
  | .lit x => x.token?.isSome
  | .comptime _ => false
  | .ident name => isIdentifier name && !reserved.contains name
  | .call c args => c.isPlain && Code.arePlain args
  | .member o name => o.isPlain && isIdentifier name
  | .index o key => o.isPlain && key.isPlain
  | .array es => Code.arePlain es
  | .binary _ l r => l.isPlain && r.isPlain
  | .lambda params body => params.all isIdentifier && Stmt.arePlain body

def Code.arePlain : List Code → Bool
  | [] => true
  | c :: cs => c.isPlain && Code.arePlain cs

def Stmt.isPlain : Stmt → Bool
  | .letBind name c | .exportConst name c => isIdentifier name && c.isPlain
  | .expr c | .ret c => c.isPlain
  | .retVoid => true

def Stmt.arePlain : List Stmt → Bool
  | [] => true
  | s :: ss => s.isPlain && Stmt.arePlain ss

end

section Rendering

variable {w : Writer (Except Fault)} {x : Item} {t : Token}

theorem Code.print_lit (ht : x.token? = some t) (k : List Token) :
    Code.print (.lit x) k = t :: k := by
  simp [Code.print, ht]

theorem token?_cases (ht : x.token? = some t) :
    (∃ w ∈ literals, t = .word w) ∨ ∃ s, t = .str s := by
  cases x with
  | bool b => cases b <;> cases ht <;> exact .inl ⟨_, by decide, rfl⟩
  | undefined | null =>
    cases ht
    exact .inl ⟨_, by decide, rfl⟩
  | str s =>
    cases ht
    exact .inr ⟨s, rfl⟩
  | _ => cases ht

theorem isProper_of_token? (ht : x.token? = some t) : t.isProper := by
  obtain ⟨w, hw, rfl⟩ | ⟨s, rfl⟩ := token?_cases ht
  · have h : ∀ w ∈ literals, isIdentifier w := by decide
    exact h w hw
  · rfl

theorem literal_of_token? (ht : x.token? = some t) : x.literal = .ok (some t.text) := by
  cases x with
  | bool b => cases b <;> cases ht <;> rfl
  | undefined | null | str =>
    cases ht
    rfl
  | _ => cases ht

theorem isMarks_op (op : Op) : isMarks (" " ++ op.symbol ++ " ") := by
  cases op <;> decide

theorem forall₂_params {params : List String} (hp : ∀ p ∈ params, isIdentifier p) :
    List.Forall₂ Spells params (params.map fun p => (.word p :: ·)) := by
  induction params with
  | nil => exact .nil
  | cons p params ih =>
    rw [List.forall_mem_cons] at hp
    exact .cons (.token (t := .word p) hp.1) (ih hp.2)

/-- The writer leaves names alone and writes literals as their tokens. -/
structure Writer.IsPlain (w : Writer (Except Fault)) : Prop where
  item : ∀ {x t}, x.token? = some t → w.item x = pure t.text
  free : ∀ name, w.free name = pure name

theorem isPlain_writer (out : Output) : out.writer.IsPlain where
  item {x t} ht := by
    cases x with
    | ref => cases ht
    | _ =>
      simp only [Output.writer, plainWriter, Output.inline, Output.spell, literal_of_token? ht]
      rfl
  free _ := rfl

mutual

theorem Code.spells (hw : w.IsPlain) (c : Code) (hc : c.isPlain) (scope : Scope) :
    ∃ s, c.render w scope = pure s ∧ Spells s c.print := by
  cases c with
  | lit x =>
    obtain ⟨t, ht⟩ := Option.isSome_iff_exists.mp hc
    have hprint : Code.print (.lit x) = (t :: ·) := funext (Code.print_lit ht)
    exact ⟨t.text, hw.item ht, hprint ▸ .token (isProper_of_token? ht)⟩
  | comptime => cases hc
  | ident name =>
    simp only [Code.isPlain, Bool.and_eq_true] at hc
    refine ⟨name, ?_, .token (t := .word name) hc.1⟩
    simp only [Code.render, hw.free, ite_self]
  | call c args =>
    simp only [Code.isPlain, Bool.and_eq_true] at hc
    obtain ⟨f, hf, hsf⟩ := c.spells hw hc.1 scope
    obtain ⟨parts, hparts, hsp⟩ := Code.spellsAll hw args hc.2 scope
    exact ⟨f ++ "(" ++ commas parts ++ ")", by simp [Code.render, hf, hparts],
      (hsf.between (.separated hsp rfl) rfl).after rfl⟩
  | member o name =>
    simp only [Code.isPlain, Bool.and_eq_true] at hc
    obtain ⟨obj, ho, hso⟩ := o.spells hw hc.1 scope
    exact ⟨obj ++ "." ++ name, by simp [Code.render, ho],
      hso.between (.token (t := .word name) hc.2) rfl⟩
  | index o k =>
    simp only [Code.isPlain, Bool.and_eq_true] at hc
    obtain ⟨obj, ho, hso⟩ := o.spells hw hc.1 scope
    obtain ⟨key, hk, hsk⟩ := k.spells hw hc.2 scope
    exact ⟨obj ++ "[" ++ key ++ "]", by simp [Code.render, ho, hk], (hso.between hsk rfl).after rfl⟩
  | array es =>
    obtain ⟨parts, hparts, hsp⟩ := Code.spellsAll hw es hc scope
    exact ⟨"[" ++ commas parts ++ "]", by simp [Code.render, hparts],
      ((Spells.separated hsp rfl).before rfl).after rfl⟩
  | binary op l r =>
    simp only [Code.isPlain, Bool.and_eq_true] at hc
    obtain ⟨lhs, hl, hsl⟩ := l.spells hw hc.1 scope
    obtain ⟨rhs, hr, hsr⟩ := r.spells hw hc.2 scope
    refine ⟨"(" ++ (lhs ++ (" " ++ op.symbol ++ " ") ++ rhs) ++ ")", ?_,
      ((hsl.between hsr (isMarks_op op)).before rfl).after rfl⟩
    simp [Code.render, hl, hr, String.append_assoc]
  | lambda params body =>
    simp only [Code.isPlain, Bool.and_eq_true, List.all_eq_true] at hc
    obtain ⟨lines, hlines, hsl⟩ := Stmt.spellsAll hw body hc.2 (bindings body ++ (params ++ scope))
    have hparams := Spells.separated (m := ", ") (forall₂_params hc.1) rfl
    refine ⟨"((" ++ (commas params ++ ") => \x7b " ++ " ".intercalate lines) ++ " \x7d)", ?_,
      ((hparams.between (.separated hsl rfl) rfl).before rfl).after rfl⟩
    simp [Code.render, hlines, String.append_assoc]

theorem Code.spellsAll (hw : w.IsPlain) (cs : List Code) (hcs : Code.arePlain cs) (scope : Scope) :
    ∃ ss, Code.renderAll w scope cs = pure ss ∧ List.Forall₂ Spells ss (Code.printers cs) := by
  cases cs with
  | nil => exact ⟨[], rfl, .nil⟩
  | cons c cs =>
    simp only [Code.arePlain, Bool.and_eq_true] at hcs
    obtain ⟨s, hs, hsc⟩ := c.spells hw hcs.1 scope
    obtain ⟨ss, hss, hscs⟩ := Code.spellsAll hw cs hcs.2 scope
    exact ⟨s :: ss, by simp [Code.renderAll, hs, hss], .cons hsc hscs⟩

theorem Stmt.spells (hw : w.IsPlain) (s : Stmt) (hs : s.isPlain) (scope : Scope) :
    ∃ text, s.render w scope = pure text ∧ Spells text s.print := by
  cases s with
  | letBind name c =>
    simp only [Stmt.isPlain, Bool.and_eq_true] at hs
    obtain ⟨init, hi, hsi⟩ := c.spells hw hs.2 scope
    have hname := (Spells.token (t := .word name) hs.1).between hsi (m := " = ") rfl
    refine ⟨"let" ++ " " ++ (name ++ " = " ++ init) ++ ";", ?_,
      ((Spells.token (t := .word "let") rfl).between hname rfl).after rfl⟩
    simp [Stmt.render, hi, ← String.append_assoc]
  | exportConst name c =>
    simp only [Stmt.isPlain, Bool.and_eq_true] at hs
    obtain ⟨init, hi, hsi⟩ := c.spells hw hs.2 scope
    have hname := (Spells.token (t := .word name) hs.1).between hsi (m := " = ") rfl
    have hconst := (Spells.token (t := .word "const") rfl).between hname (m := " ") rfl
    refine ⟨"export" ++ " " ++ ("const" ++ " " ++ (name ++ " = " ++ init)) ++ ";", ?_,
      ((Spells.token (t := .word "export") rfl).between hconst rfl).after rfl⟩
    simp [Stmt.render, hi, ← String.append_assoc]
  | expr c =>
    obtain ⟨text, ht, hst⟩ := c.spells hw hs scope
    exact ⟨text ++ ";", by simp [Stmt.render, ht], hst.after rfl⟩
  | ret c =>
    obtain ⟨text, ht, hst⟩ := c.spells hw hs scope
    refine ⟨"return" ++ " " ++ text ++ ";", ?_,
      ((Spells.token (t := .word "return") rfl).between hst rfl).after rfl⟩
    simp [Stmt.render, ht]
  | retVoid => exact ⟨"return" ++ ";", rfl, (Spells.token (t := .word "return") rfl).after rfl⟩

theorem Stmt.spellsAll (hw : w.IsPlain) (ss : List Stmt) (hss : Stmt.arePlain ss) (scope : Scope) :
    ∃ lines, Stmt.renderAll w scope ss = pure lines ∧
      List.Forall₂ Spells lines (Stmt.printers ss) := by
  cases ss with
  | nil => exact ⟨[], rfl, .nil⟩
  | cons s ss =>
    simp only [Stmt.arePlain, Bool.and_eq_true] at hss
    obtain ⟨line, hl, hsl⟩ := s.spells hw hss.1 scope
    obtain ⟨lines, hls, hsls⟩ := Stmt.spellsAll hw ss hss.2 scope
    exact ⟨line :: lines, by simp [Stmt.renderAll, hl, hls], .cons hsl hsls⟩

end

/-- A program is written as its tokens, and these can be told apart. -/
theorem renderProgram_plain (hw : w.IsPlain) (p : Program) (hp : Stmt.arePlain p) :
    renderProgram w p = pure (joined (separated "\n" (Stmt.printers p) [])) ∧
      isClear (separated "\n" (Stmt.printers p) []) := by
  obtain ⟨lines, hl, hsl⟩ := Stmt.spellsAll hw p hp (bindings p ++ [])
  have hs := Spells.separated (m := "\n") hsl rfl
  refine ⟨?_, hs.clear [] rfl rfl⟩
  rw [renderProgram, renderBlock, hl, hs.joined_eq]
  simp

end Rendering

end Comptime
