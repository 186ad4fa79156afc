import Comptime.Proofs.Tokens
import Mathlib

/-! Run-time code can be told from its text. An expression is a head, which is closed in itself, and
a chain of calls, members and indices that goes on as long as another one follows; so two
expressions with the same tokens have the same head and the same chain. -/
namespace Comptime

open Token

namespace Token

/-- The token can stand at the beginning of an expression. -/
def isStart : Token → Bool
  | word _ | str _ => true
  | mark c => c == '(' || c == '['

/-- The token goes on with an expression. -/
def isOpener : Token → Bool
  | mark c => c == '(' || c == '.' || c == '['
  | _ => false

end Token

/-- No expression goes on with these tokens. -/
def Stops (k : List Token) : Prop := k.head?.any isOpener = false

section Separated

variable {α : Type} {print : α → Printer} {separator : String} {S : List Token → Prop}
  {x : α} {xs ys : List α} {ps : List Printer} {k j : List Token}

theorem marks_inj {m : String} : marks m k = marks m j ↔ k = j := List.append_right_inj _

theorem stops_preceded (hs : ∀ r, S (marks separator r)) (hk : S k) :
    S (preceded separator ps k) := by
  cases ps with
  | nil => exact hk
  | cons p ps => exact hs _

/-- None of these follows, neither at once nor after a separator. -/
def Closes (separator : String) (print : α → Printer) (xs : List α) (k : List Token) : Prop :=
  ∀ x ∈ xs, ∀ r, k ≠ print x r ∧ k ≠ marks separator (print x r)

theorem closes_of_start (hstart : ∀ x ∈ xs, ∀ r, (print x r).head?.any isStart)
    (hk : k.head?.any isStart = false)
    (hsep : ∀ r, k = marks separator r → r.head?.any isStart = false) :
    Closes separator print xs k := by
  intro x hx r
  have hs := hstart x hx r
  constructor
  · rintro rfl
    simp [hk] at hs
  · intro he
    simp [hsep _ he] at hs

/-- Parts that can be told from their tokens, wherever a separator or the end follows. -/
def Separable (S : List Token → Prop) (print : α → Printer) (xs ys : List α) : Prop :=
  ∀ x ∈ xs, ∀ y ∈ ys, ∀ r s, S r → S s → print x r = print y s → x = y ∧ r = s

variable (hs : ∀ r, S (marks separator r)) (hk : S k) (hj : S j)
include hs hk hj

theorem preceded_inj (hread : Separable S print xs ys) (hx : Closes separator print ys k)
    (hy : Closes separator print xs j)
    (h : preceded separator (xs.map print) k = preceded separator (ys.map print) j) :
    xs = ys ∧ k = j := by
  induction xs generalizing ys with
  | nil =>
    cases ys with
    | nil => exact ⟨rfl, h⟩
    | cons y ys => exact absurd h (hx y List.mem_cons_self _).2
  | cons x xs ih =>
    cases ys with
    | nil => exact absurd h.symm (hy x List.mem_cons_self _).2
    | cons y ys =>
      obtain ⟨rfl, hrest⟩ := hread x List.mem_cons_self y List.mem_cons_self _ _
        (stops_preceded hs hk) (stops_preceded hs hj) (marks_inj.mp h)
      obtain ⟨rfl, hkj⟩ := ih
        (fun x hx y hy => hread x (List.mem_cons_of_mem _ hx) y (List.mem_cons_of_mem _ hy))
        (fun y hy => hx y (List.mem_cons_of_mem _ hy))
        (fun x hx => hy x (List.mem_cons_of_mem _ hx)) hrest
      exact ⟨rfl, hkj⟩

/-- A list of parts can be told from its tokens. -/
theorem separated_inj (hread : Separable S print xs ys) (hx : Closes separator print ys k)
    (hy : Closes separator print xs j)
    (h : separated separator (xs.map print) k = separated separator (ys.map print) j) :
    xs = ys ∧ k = j := by
  cases xs with
  | nil =>
    cases ys with
    | nil => exact ⟨rfl, h⟩
    | cons y ys => exact absurd h (hx y List.mem_cons_self _).1
  | cons x xs =>
    cases ys with
    | nil => exact absurd h.symm (hy x List.mem_cons_self _).1
    | cons y ys =>
      -- with one more separator in front it is a list that comes after something
      refine preceded_inj hs hk hj hread hx hy ?_
      exact congrArg (marks separator) h

end Separated

section Heads

variable {c d : Code} {cs ds : List Code} {ss : List Stmt} {k j r : List Token} {w : String}

theorem Code.printers_eq (cs : List Code) : Code.printers cs = cs.map Code.print := by
  induction cs with
  | nil => rfl
  | cons c cs ih => rw [Code.printers, ih, List.map_cons]

theorem Stmt.printers_eq (ss : List Stmt) : Stmt.printers ss = ss.map Stmt.print := by
  induction ss with
  | nil => rfl
  | cons s ss ih => rw [Stmt.printers, ih, List.map_cons]

theorem Code.arePlain_iff : Code.arePlain cs ↔ ∀ c ∈ cs, c.isPlain := by
  induction cs with
  | nil => simp [Code.arePlain]
  | cons c cs ih => simp [Code.arePlain, ih]

theorem Stmt.arePlain_iff : Stmt.arePlain ss ↔ ∀ s ∈ ss, s.isPlain := by
  induction ss with
  | nil => simp [Stmt.arePlain]
  | cons s ss ih => simp [Stmt.arePlain, ih]

theorem isStart_of_token? {x : Item} {t : Token} (ht : x.token? = some t) : t.isStart := by
  obtain ⟨w, -, rfl⟩ | ⟨s, rfl⟩ := token?_cases ht <;> rfl

theorem Code.print_start (c : Code) (hc : c.isPlain) (k : List Token) :
    (c.print k).head?.any isStart := by
  cases c with
  | lit x =>
    obtain ⟨t, ht⟩ := Option.isSome_iff_exists.mp hc
    rw [Code.print_lit ht]
    exact isStart_of_token? ht
  | comptime => cases hc
  | ident => rfl
  | call c args =>
    simp only [Code.isPlain, Bool.and_eq_true] at hc
    exact c.print_start hc.1 _
  | member o name =>
    simp only [Code.isPlain, Bool.and_eq_true] at hc
    exact o.print_start hc.1 _
  | index o key =>
    simp only [Code.isPlain, Bool.and_eq_true] at hc
    exact o.print_start hc.1 _
  | array | binary | lambda => rfl

theorem Stmt.print_start (s : Stmt) (hs : s.isPlain) (k : List Token) :
    (s.print k).head?.any isStart := by
  cases s with
  | expr c => exact c.print_start hs _
  | letBind | exportConst | ret | retVoid => rfl

end Heads

section Chains

/-- What can follow an expression as a part of it. -/
inductive Suffix
  | call (args : List Code)
  | member (name : String)
  | index (key : Code)

namespace Suffix

def print : Suffix → Printer
  | call args, k => marks "(" (separated ", " (Code.printers args) (marks ")" k))
  | member name, k => marks "." (.word name :: k)
  | index key, k => marks "[" (key.print (marks "]" k))

def isPlain : Suffix → Bool
  | call args => Code.arePlain args
  | member name => isIdentifier name
  | index key => key.isPlain

def apply (c : Code) : Suffix → Code
  | call args => .call c args
  | member name => .member c name
  | index key => .index c key

end Suffix

variable {c d : Code} {l l' : Suffix} {chain chain' : List Suffix} {k j r : List Token} {w : String}

theorem Suffix.not_stops : ¬Stops (l.print k) := by
  cases l <;> simp [Suffix.print, Stops, marks, isOpener]

theorem Code.print_apply : (l.apply c).print k = c.print (l.print k) := by
  cases l <;> simp [Suffix.apply, Suffix.print, Code.print]

/-- The expression with a chain of suffixes after it. -/
def Code.extend (c : Code) (chain : List Suffix) : Code := chain.foldl Suffix.apply c

theorem Code.print_extend : (c.extend chain).print k = c.print (chain.foldr Suffix.print k) := by
  induction chain generalizing c with
  | nil => rfl
  | cons l chain ih =>
    rw [List.foldr_cons, ← Code.print_apply]
    exact ih

/-- The expression is closed in itself. -/
def Code.isHead : Code → Bool
  | .call .. | .member .. | .index .. => false
  | _ => true

/-- The expression is a head with a chain after it. -/
def Code.IsChain (c : Code) : Prop :=
  ∃ (d : Code) (chain : List Suffix), c = d.extend chain ∧ d.isHead ∧ d.isPlain ∧
    ∀ l ∈ chain, l.isPlain

theorem Code.IsChain.apply (hc : c.IsChain) (hl : l.isPlain) : (l.apply c).IsChain := by
  obtain ⟨d, chain, rfl, hhead, hplain, hchain⟩ := hc
  refine ⟨d, chain ++ [l], by simp [Code.extend], hhead, hplain, ?_⟩
  simpa [or_imp, forall_and] using ⟨hchain, hl⟩

theorem Code.isChain (c : Code) (hc : c.isPlain) : c.IsChain := by
  cases c with
  | call c args =>
    simp only [Code.isPlain, Bool.and_eq_true] at hc
    exact (c.isChain hc.1).apply (l := .call args) hc.2
  | member o name =>
    simp only [Code.isPlain, Bool.and_eq_true] at hc
    exact (o.isChain hc.1).apply (l := .member name) hc.2
  | index o key =>
    simp only [Code.isPlain, Bool.and_eq_true] at hc
    exact (o.isChain hc.1).apply (l := .index key) hc.2
  | lit | comptime | ident | array | binary | lambda =>
    exact ⟨_, [], rfl, rfl, hc, by simp⟩

/-- An expression that begins with a word, with nothing after it to go on with, is that word. -/
theorem Code.eq_of_print_word (hc : c.isPlain) (h : c.print k = .word w :: r) (hr : Stops r) :
    r = k ∧ (c = .ident w ∨ ∃ x, c = .lit x ∧ x.token? = some (.word w)) := by
  obtain ⟨d, chain, rfl, hhead, hplain, -⟩ := c.isChain hc
  rw [Code.print_extend] at h
  have hnil (he : chain.foldr Suffix.print k = r) : chain = [] := by
    cases chain with
    | nil => rfl
    | cons l chain => exact absurd (he ▸ hr) Suffix.not_stops
  cases d with
  | lit x =>
    obtain ⟨t, ht⟩ := Option.isSome_iff_exists.mp hplain
    rw [Code.print_lit ht] at h
    obtain ⟨rfl, he⟩ := List.cons.inj h
    obtain rfl := hnil he
    exact ⟨he.symm, .inr ⟨x, rfl, ht⟩⟩
  | ident name =>
    obtain ⟨hw, he⟩ := List.cons.inj h
    obtain rfl := hnil he
    cases hw
    exact ⟨he.symm, .inl rfl⟩
  | comptime => cases hplain
  | array | binary | lambda => simp [Code.print, marks] at h
  | call | member | index => cases hhead

end Chains

section Reading

variable {c d l r : Code} {cs ds : List Code} {ss ts : List Stmt} {k j : List Token} {m : String}

/-- Where both stop, no other code has the tokens of the expression. -/
def Code.Reads (c : Code) : Prop :=
  ∀ d k j, d.isPlain → Stops k → Stops j → c.print k = d.print j → c = d ∧ k = j

/-- No other head has the tokens of the expression, whatever follows. -/
def Code.ReadsHead (c : Code) : Prop :=
  ∀ d k j, d.isHead → d.isPlain → c.print k = d.print j → c = d ∧ k = j

def Suffix.Reads (l : Suffix) : Prop :=
  ∀ l' k j, l'.isPlain → l.print k = l'.print j → l = l' ∧ k = j

def Stmt.Reads (s : Stmt) : Prop :=
  ∀ t k j, t.isPlain → s.print k = t.print j → s = t ∧ k = j

theorem Code.closes (hcs : Code.arePlain cs) (hm : m = ")" ∨ m = "]") :
    Closes ", " Code.print cs (marks m k) := by
  have hstart (c : Code) (hc : c ∈ cs) := c.print_start (Code.arePlain_iff.mp hcs c hc)
  refine closes_of_start hstart ?_ fun r he => ?_
  · rcases hm with rfl | rfl <;> rfl
  · rcases hm with rfl | rfl <;> simp [marks] at he

theorem Code.printers_inj (hr : ∀ c ∈ cs, c.Reads) (hcs : Code.arePlain cs)
    (hds : Code.arePlain ds) (hm : m = ")" ∨ m = "]")
    (h : separated ", " (Code.printers cs) (marks m k) =
      separated ", " (Code.printers ds) (marks m j)) : cs = ds ∧ k = j := by
  have hsep (k : List Token) : Stops (marks ", " k) := rfl
  have hstops (k : List Token) : Stops (marks m k) := by rcases hm with rfl | rfl <;> rfl
  rw [Code.printers_eq, Code.printers_eq] at h
  obtain ⟨he, hkj⟩ := separated_inj hsep (hstops k) (hstops j)
    (fun c hc d hd _ _ hk hj => hr c hc d _ _ (Code.arePlain_iff.mp hds d hd) hk hj)
    (Code.closes hds hm) (Code.closes hcs hm) h
  exact ⟨he, marks_inj.mp hkj⟩

theorem Suffix.reads_call (hr : ∀ c ∈ cs, c.Reads) (hcs : Code.arePlain cs) :
    (Suffix.call cs).Reads := by
  intro l k j hl h
  cases l with
  | call ds =>
    obtain ⟨rfl, hkj⟩ := Code.printers_inj hr hcs hl (.inl rfl) (marks_inj.mp h)
    exact ⟨rfl, hkj⟩
  | member | index => simp [Suffix.print, marks] at h

theorem Suffix.reads_member (name : String) : (Suffix.member name).Reads := by
  intro l k j hl h
  cases l with
  | member => simpa [Suffix.print, marks] using h
  | call | index => simp [Suffix.print, marks] at h

theorem Suffix.reads_index (hc : c.Reads) : (Suffix.index c).Reads := by
  intro l k j hl h
  cases l with
  | index d =>
    have hstops (k : List Token) : Stops (marks "]" k) := rfl
    obtain ⟨rfl, hkj⟩ := hc d _ _ hl (hstops k) (hstops j) (marks_inj.mp h)
    exact ⟨rfl, marks_inj.mp hkj⟩
  | call | member => simp [Suffix.print, marks] at h

theorem Suffix.chain_inj {chain chain' : List Suffix} (hl : ∀ l ∈ chain, l.Reads)
    (hl' : ∀ l ∈ chain', l.isPlain) (hk : Stops k) (hj : Stops j)
    (h : chain.foldr Suffix.print k = chain'.foldr Suffix.print j) : chain = chain' ∧ k = j := by
  induction chain generalizing chain' with
  | nil =>
    cases chain' with
    | nil => exact ⟨rfl, h⟩
    | cons l' chain' =>
      obtain rfl : k = l'.print (chain'.foldr Suffix.print j) := h
      exact absurd hk Suffix.not_stops
  | cons l chain ih =>
    cases chain' with
    | nil =>
      obtain rfl : l.print (chain.foldr Suffix.print k) = j := h
      exact absurd hj Suffix.not_stops
    | cons l' chain' =>
      rw [List.forall_mem_cons] at hl hl'
      obtain ⟨rfl, hrest⟩ := hl.1 l' _ _ hl'.1 h
      obtain ⟨rfl, hkj⟩ := ih hl.2 hl'.2 hrest
      exact ⟨rfl, hkj⟩

/-- A head with a chain after it can be told from its tokens. -/
theorem Code.ReadsHead.extend {chain : List Suffix} (hc : c.ReadsHead) (hl : ∀ l ∈ chain, l.Reads) :
    (c.extend chain).Reads := by
  intro d k j hd hk hj h
  obtain ⟨d, chain', rfl, hhead, hplain, hchain⟩ := d.isChain hd
  rw [Code.print_extend, Code.print_extend] at h
  obtain ⟨rfl, hrest⟩ := hc d _ _ hhead hplain h
  obtain ⟨rfl, hkj⟩ := Suffix.chain_inj hl hchain hk hj hrest
  exact ⟨rfl, hkj⟩

end Reading

section Statements

variable {c : Code} {ss ts : List Stmt} {k j : List Token} {w m : String}

theorem Code.print_ne_word_space (hc : c.isPlain) :
    c.print (marks ";" k) ≠ .word w :: marks " " j := by
  intro h
  obtain ⟨he, -⟩ := Code.eq_of_print_word hc h rfl
  simp [marks] at he

theorem Code.print_ne_return (hc : c.isPlain) :
    c.print (marks ";" k) ≠ .word "return" :: marks ";" j := by
  intro h
  obtain ⟨-, rfl | ⟨x, rfl, ht⟩⟩ := Code.eq_of_print_word hc h rfl
  · exact absurd hc (by decide)
  · obtain ⟨w, hw, he⟩ | ⟨s, he⟩ := token?_cases ht
    · cases he
      exact absurd hw (by decide)
    · cases he

theorem Code.Reads.statement {d : Code} (hr : c.Reads) (hd : d.isPlain)
    (h : c.print (marks ";" k) = d.print (marks ";" j)) : c = d ∧ k = j := by
  have hstops (k : List Token) : Stops (marks ";" k) := rfl
  obtain ⟨rfl, hkj⟩ := hr d _ _ hd (hstops k) (hstops j) h
  exact ⟨rfl, marks_inj.mp hkj⟩

theorem Stmt.reads_letBind (name : String) (hr : c.Reads) : (Stmt.letBind name c).Reads := by
  intro t k j ht h
  cases t with
  | letBind name' d =>
    simp only [Stmt.isPlain, Bool.and_eq_true] at ht
    simp only [Stmt.print, List.cons.injEq, marks_inj, Token.word.injEq, true_and] at h
    obtain ⟨rfl, h⟩ := h
    obtain ⟨rfl, hkj⟩ := hr.statement ht.2 h
    exact ⟨rfl, hkj⟩
  | expr d => exact absurd h.symm (Code.print_ne_word_space ht)
  | exportConst | ret | retVoid => simp [Stmt.print] at h

theorem Stmt.reads_exportConst (name : String) (hr : c.Reads) :
    (Stmt.exportConst name c).Reads := by
  intro t k j ht h
  cases t with
  | exportConst name' d =>
    simp only [Stmt.isPlain, Bool.and_eq_true] at ht
    simp only [Stmt.print, List.cons.injEq, marks_inj, Token.word.injEq, true_and] at h
    obtain ⟨rfl, h⟩ := h
    obtain ⟨rfl, hkj⟩ := hr.statement ht.2 h
    exact ⟨rfl, hkj⟩
  | expr d => exact absurd h.symm (Code.print_ne_word_space ht)
  | letBind | ret | retVoid => simp [Stmt.print] at h

theorem Stmt.reads_expr (hc : c.isPlain) (hr : c.Reads) : (Stmt.expr c).Reads := by
  intro t k j ht h
  cases t with
  | expr d =>
    obtain ⟨rfl, hkj⟩ := hr.statement ht h
    exact ⟨rfl, hkj⟩
  | letBind | exportConst | ret => exact absurd h (Code.print_ne_word_space hc)
  | retVoid => exact absurd h (Code.print_ne_return hc)

theorem Stmt.reads_ret (hr : c.Reads) : (Stmt.ret c).Reads := by
  intro t k j ht h
  cases t with
  | ret d =>
    simp only [Stmt.print, List.cons.injEq, marks_inj, true_and] at h
    obtain ⟨rfl, hkj⟩ := hr.statement ht h
    exact ⟨rfl, hkj⟩
  | expr d => exact absurd h.symm (Code.print_ne_word_space ht)
  | letBind | exportConst | retVoid => simp [Stmt.print, marks] at h

theorem Stmt.reads_retVoid : Stmt.retVoid.Reads := by
  intro t k j ht h
  cases t with
  | retVoid => exact ⟨rfl, marks_inj.mp (List.cons.inj h).2⟩
  | expr d => exact absurd h.symm (Code.print_ne_return ht)
  | letBind | exportConst | ret => simp [Stmt.print, marks] at h

/-- No statement follows where a block ends. -/
theorem Stmt.closes_block (hss : Stmt.arePlain ss) :
    Closes " " Stmt.print ss (marks " \x7d)" k) := by
  have hstart (s : Stmt) (hs : s ∈ ss) := s.print_start (Stmt.arePlain_iff.mp hss s hs)
  refine closes_of_start hstart rfl fun r he => ?_
  obtain rfl : marks "\x7d)" k = r := by simpa [marks] using he
  rfl

theorem Stmt.closes_program (hss : Stmt.arePlain ss) : Closes "\n" Stmt.print ss [] := by
  have hstart (s : Stmt) (hs : s ∈ ss) := s.print_start (Stmt.arePlain_iff.mp hss s hs)
  refine closes_of_start hstart rfl fun r he => ?_
  simp [marks] at he

theorem Stmt.printers_inj (hr : ∀ s ∈ ss, s.Reads) (hts : Stmt.arePlain ts)
    (hj : Closes m Stmt.print ss j) (hk : Closes m Stmt.print ts k)
    (h : separated m (Stmt.printers ss) k = separated m (Stmt.printers ts) j) :
    ss = ts ∧ k = j := by
  rw [Stmt.printers_eq, Stmt.printers_eq] at h
  exact separated_inj (S := fun _ => True) (fun _ => trivial) trivial trivial
    (fun s hs t ht _ _ _ _ => hr s hs t _ _ (Stmt.arePlain_iff.mp hts t ht)) hk hj h

end Statements

section Expressions

variable {c d l r : Code} {cs : List Code} {body : List Stmt} {params params' : List String}
  {k j : List Token} {x : Item} {t : Token} {op op' : Op} {name : String}

theorem op_inj (h : marks (" " ++ op.symbol ++ " ") k = marks (" " ++ op'.symbol ++ " ") j) :
    op = op' ∧ k = j := by
  cases op <;> cases op' <;> simp_all [marks, Op.symbol]

theorem token?_inj {y : Item} (hx : x.token? = some t) (hy : y.token? = some t) : x = y := by
  have h := hx.trans hy.symm
  clear hy
  fun_cases Item.token? x <;> fun_cases Item.token? y <;> simp_all [Item.token?]

theorem params_inj (h : separated ", " (params.map fun p => (.word p :: ·)) (marks ") => \x7b " k) =
    separated ", " (params'.map fun p => (.word p :: ·)) (marks ") => \x7b " j)) :
    params = params' ∧ k = j := by
  have hcloses (params : List String) (k : List Token) :
      Closes ", " (fun p => (.word p :: ·)) params (marks ") => \x7b " k) := by
    intro p _ r
    constructor <;> simp [marks]
  obtain ⟨rfl, hkj⟩ := separated_inj (S := fun _ => True) (fun _ => trivial) trivial trivial
    (fun p _ q _ r s _ _ => by simp) (hcloses params' k) (hcloses params j) h
  exact ⟨rfl, marks_inj.mp hkj⟩

theorem Code.print_lit_ne_mark {a : Char} (hx : (Code.lit x).isPlain) :
    (Code.lit x).print k ≠ .mark a :: j := by
  intro h
  obtain ⟨t, ht⟩ := Option.isSome_iff_exists.mp hx
  rw [Code.print_lit ht] at h
  obtain ⟨rfl, -⟩ := List.cons.inj h
  simpa using token?_cases ht

/-- No expression in parentheses begins like the parameters of a function. -/
theorem print_ne_params (hl : l.isPlain) :
    l.print (marks (" " ++ op.symbol ++ " ") k) ≠
      marks "(" (separated ", " (params.map fun p => (.word p :: ·)) (marks ") => \x7b " j)) := by
  intro h
  obtain ⟨d, chain, rfl, hhead, hplain, -⟩ := l.isChain hl
  rw [Code.print_extend] at h
  cases d with
  | lit x => exact Code.print_lit_ne_mark hplain h
  | comptime => cases hplain
  | ident | array => simp [Code.print, marks] at h
  | call | member | index => cases hhead
  -- a function begins with two parentheses, and no parameter with one
  | lambda => cases params <;> simp [Code.print, marks, separated] at h
  | binary op' l' r' =>
    simp only [Code.isPlain, Bool.and_eq_true] at hplain
    rw [Code.print, marks_inj] at h
    -- the operand would have to be the first parameter, and then an operator follows, not a comma
    cases params with
    | nil =>
      have hstart := congrArg (fun ts => ts.head?.any isStart) h
      simp only [l'.print_start hplain.1] at hstart
      cases hstart
    | cons p params =>
      have hstops : Stops (preceded ", " (params.map fun p => (.word p :: ·))
          (marks ") => \x7b " j)) := stops_preceded (fun _ => rfl) rfl
      obtain ⟨he, -⟩ := Code.eq_of_print_word hplain.1 h hstops
      cases params <;> simp [preceded, marks] at he

theorem token?_ne_ident (hn : (Code.ident name).isPlain) : x.token? ≠ some (.word name) := by
  intro ht
  obtain ⟨w, hw, he⟩ | ⟨s, he⟩ := token?_cases ht
  · cases he
    simp [Code.isPlain, reserved, hw] at hn
  · cases he

theorem Code.readsHead_lit (hx : (Code.lit x).isPlain) : (Code.lit x).ReadsHead := by
  intro d k j hhead hplain h
  obtain ⟨t, ht⟩ := Option.isSome_iff_exists.mp hx
  cases d with
  | lit y =>
    obtain ⟨u, hu⟩ := Option.isSome_iff_exists.mp hplain
    rw [Code.print_lit ht, Code.print_lit hu] at h
    obtain ⟨rfl, hkj⟩ := List.cons.inj h
    exact ⟨congrArg Code.lit (token?_inj ht hu), hkj⟩
  | ident name =>
    rw [Code.print_lit ht] at h
    obtain ⟨rfl, -⟩ := List.cons.inj h
    exact absurd ht (token?_ne_ident hplain)
  | comptime => cases hplain
  | array | binary | lambda => exact absurd h (Code.print_lit_ne_mark hx)
  | call | member | index => cases hhead

theorem Code.readsHead_ident (hn : (Code.ident name).isPlain) : (Code.ident name).ReadsHead := by
  intro d k j hhead hplain h
  cases d with
  | lit y =>
    obtain ⟨u, hu⟩ := Option.isSome_iff_exists.mp hplain
    rw [Code.print_lit hu] at h
    obtain ⟨rfl, -⟩ := List.cons.inj h
    exact absurd hu (token?_ne_ident hn)
  | ident name' => simpa [Code.print] using h
  | comptime => cases hplain
  | array | binary | lambda => simp [Code.print, marks] at h
  | call | member | index => cases hhead

theorem Code.readsHead_array (hr : ∀ c ∈ cs, c.Reads) (hcs : Code.arePlain cs) :
    (Code.array cs).ReadsHead := by
  intro d k j hhead hplain h
  cases d with
  | array ds =>
    rw [Code.print, Code.print, marks_inj] at h
    obtain ⟨rfl, hkj⟩ := Code.printers_inj hr hcs hplain (.inr rfl) h
    exact ⟨rfl, hkj⟩
  | lit y => exact absurd h.symm (Code.print_lit_ne_mark hplain)
  | comptime => cases hplain
  | ident | binary | lambda => simp [Code.print, marks] at h
  | call | member | index => cases hhead

theorem Code.readsHead_binary (op : Op) (hl : l.Reads) (hr : r.Reads) (hplain : l.isPlain) :
    (Code.binary op l r).ReadsHead := by
  intro d k j hhead hd h
  cases d with
  | binary op' l' r' =>
    have hstops (op : Op) (k : List Token) : Stops (marks (" " ++ op.symbol ++ " ") k) := by
      simp [Stops, marks, isOpener]
    have hclose (k : List Token) : Stops (marks ")" k) := rfl
    simp only [Code.isPlain, Bool.and_eq_true] at hd
    rw [Code.print, Code.print, marks_inj] at h
    obtain ⟨rfl, hop⟩ := hl l' _ _ hd.1 (hstops op _) (hstops op' _) h
    obtain ⟨rfl, hrhs⟩ := op_inj hop
    obtain ⟨rfl, hkj⟩ := hr r' _ _ hd.2 (hclose k) (hclose j) hrhs
    exact ⟨rfl, marks_inj.mp hkj⟩
  | lambda params body =>
    rw [Code.print, Code.print] at h
    exact absurd (marks_inj.mp h) (print_ne_params hplain)
  | lit y => exact absurd h.symm (Code.print_lit_ne_mark hd)
  | comptime => cases hd
  | ident | array => simp [Code.print, marks] at h
  | call | member | index => cases hhead

theorem Code.readsHead_lambda (params : List String) (hr : ∀ s ∈ body, s.Reads)
    (hbody : Stmt.arePlain body) : (Code.lambda params body).ReadsHead := by
  intro d k j hhead hd h
  cases d with
  | lambda params' body' =>
    simp only [Code.isPlain, Bool.and_eq_true] at hd
    rw [Code.print, Code.print, marks_inj] at h
    obtain ⟨rfl, hlines⟩ := params_inj h
    obtain ⟨rfl, hkj⟩ := Stmt.printers_inj hr hd.2 (Stmt.closes_block hbody)
      (Stmt.closes_block hd.2) hlines
    exact ⟨rfl, marks_inj.mp hkj⟩
  | binary op l r =>
    simp only [Code.isPlain, Bool.and_eq_true] at hd
    rw [Code.print, Code.print] at h
    exact absurd (marks_inj.mp h.symm) (print_ne_params hd.1)
  | lit y => exact absurd h.symm (Code.print_lit_ne_mark hd)
  | comptime => cases hd
  | ident | array => simp [Code.print, marks] at h
  | call | member | index => cases hhead

end Expressions

section Programs

mutual

/-- By recursion on the expression; the suffixes are gathered on the way to its head. -/
theorem Code.reads_extend (c : Code) (hc : c.isPlain) (chain : List Suffix)
    (hl : ∀ l ∈ chain, l.Reads) : (c.extend chain).Reads := by
  cases c with
  | lit x => exact (Code.readsHead_lit hc).extend hl
  | comptime => cases hc
  | ident name => exact (Code.readsHead_ident hc).extend hl
  -- what follows a callee or an object is one more suffix of the same chain
  | call c args =>
    simp only [Code.isPlain, Bool.and_eq_true] at hc
    have hargs := Suffix.reads_call (Code.reads_all args hc.2) hc.2
    exact c.reads_extend hc.1 (.call args :: chain) (List.forall_mem_cons.mpr ⟨hargs, hl⟩)
  | member o name =>
    simp only [Code.isPlain, Bool.and_eq_true] at hc
    have hname := Suffix.reads_member name
    exact o.reads_extend hc.1 (.member name :: chain) (List.forall_mem_cons.mpr ⟨hname, hl⟩)
  | index o key =>
    simp only [Code.isPlain, Bool.and_eq_true] at hc
    have hkey := Suffix.reads_index (key.reads_extend hc.2 [] (by simp))
    exact o.reads_extend hc.1 (.index key :: chain) (List.forall_mem_cons.mpr ⟨hkey, hl⟩)
  | array es => exact (Code.readsHead_array (Code.reads_all es hc) hc).extend hl
  | binary op l r =>
    simp only [Code.isPlain, Bool.and_eq_true] at hc
    have hlhs := l.reads_extend hc.1 [] (by simp)
    have hrhs := r.reads_extend hc.2 [] (by simp)
    exact (Code.readsHead_binary op hlhs hrhs hc.1).extend hl
  | lambda params body =>
    simp only [Code.isPlain, Bool.and_eq_true] at hc
    exact (Code.readsHead_lambda params (Stmt.reads_all body hc.2) hc.2).extend hl

theorem Code.reads_all (cs : List Code) (hcs : Code.arePlain cs) : ∀ c ∈ cs, c.Reads := by
  cases cs with
  | nil => simp
  | cons c cs =>
    simp only [Code.arePlain, Bool.and_eq_true] at hcs
    exact List.forall_mem_cons.mpr
      ⟨c.reads_extend hcs.1 [] (by simp), Code.reads_all cs hcs.2⟩

theorem Stmt.reads (s : Stmt) (hs : s.isPlain) : s.Reads := by
  cases s with
  | letBind name c =>
    simp only [Stmt.isPlain, Bool.and_eq_true] at hs
    exact Stmt.reads_letBind name (c.reads_extend hs.2 [] (by simp))
  | exportConst name c =>
    simp only [Stmt.isPlain, Bool.and_eq_true] at hs
    exact Stmt.reads_exportConst name (c.reads_extend hs.2 [] (by simp))
  | expr c => exact Stmt.reads_expr hs (c.reads_extend hs [] (by simp))
  | ret c => exact Stmt.reads_ret (c.reads_extend hs [] (by simp))
  | retVoid => exact Stmt.reads_retVoid

theorem Stmt.reads_all (ss : List Stmt) (hss : Stmt.arePlain ss) : ∀ s ∈ ss, s.Reads := by
  cases ss with
  | nil => simp
  | cons s ss =>
    simp only [Stmt.arePlain, Bool.and_eq_true] at hss
    exact List.forall_mem_cons.mpr ⟨s.reads hss.1, Stmt.reads_all ss hss.2⟩

end

/-- Programs that can be written as they stand are written, and no two of them alike. -/
theorem renderProgram_unambiguous (heap heap' : Heap) (t t' : Tracker) (names names' : Naming)
    (p q : Program) (hp : Stmt.arePlain p) (hq : Stmt.arePlain q) :
    (∃ text, renderProgram (primaryOutput heap t names).writer p = .ok text) ∧
      (renderProgram (primaryOutput heap t names).writer p =
        renderProgram (primaryOutput heap' t' names').writer q → p = q) := by
  obtain ⟨hrender, hclear⟩ := renderProgram_plain (isPlain_writer (primaryOutput heap t names)) p hp
  obtain ⟨hrender', hclear'⟩ :=
    renderProgram_plain (isPlain_writer (primaryOutput heap' t' names')) q hq
  refine ⟨⟨_, hrender⟩, fun h => ?_⟩
  -- from the text to the tokens, and from these to the statements
  rw [hrender, hrender'] at h
  have htokens := Token.joined_inj hclear hclear' (Except.ok.inj h)
  exact (Stmt.printers_inj (Stmt.reads_all p hp) hq (Stmt.closes_program hp)
    (Stmt.closes_program hq) htokens).1

/-- An expression in parentheses, with an index, and a string that is made to look like code. -/
def indexedSum : Program :=
  [.expr (.index (.binary .add (.lit (.str ") => \x7b [[]]; \x7d);")) (.ident "a")) (.array []))]

/-- A function whose body is a nested array. -/
def arrayFunction : Program := [.expr (.lambda ["a"] [.expr (.array [.array []])])]

theorem renderProgram_unambiguous_lookalikes :
    let w := (primaryOutput {} {} {}).writer
    Stmt.arePlain indexedSum ∧ Stmt.arePlain arrayFunction ∧
      renderProgram w indexedSum = .ok "(\") => \x7b [[]]; \x7d);\" + a)[[]];" ∧
      renderProgram w arrayFunction = .ok "((a) => \x7b [[]]; \x7d);" ∧
      (renderProgram w indexedSum = renderProgram w arrayFunction →
        indexedSum = arrayFunction) := by
  have hsum : Stmt.arePlain indexedSum := by cbv
  have hfunction : Stmt.arePlain arrayFunction := by cbv
  exact ⟨hsum, hfunction, by cbv, by cbv,
    (renderProgram_unambiguous {} {} {} {} {} {} _ _ hsum hfunction).2⟩

end Programs

end Comptime
