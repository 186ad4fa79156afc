import Comptime.Proofs.Traversal

/-! Captures as a substitution. A function is written as it would be without captures, had a literal
of the captured item stood for every free identifier that names one. The writer cannot tell the two
apart, whatever it does: it is asked for the same things in the same order. -/
namespace Comptime

/-- The captures that are meant where these names are bound. -/
def Fields.without (captures : Fields) (names : List String) : Fields :=
  captures.filter fun c => c.1 ∉ names

mutual

/-- The code with a literal for every free identifier that names a captured item. -/
def Code.fill : Fields → Code → Code
  | _, .lit x => .lit x
  | _, .comptime a => .comptime a
  | captures, .ident name => (captures.lookup name).elim (.ident name) .lit
  | captures, .call c args => .call (c.fill captures) (Code.fillAll captures args)
  | captures, .member o name => .member (o.fill captures) name
  | captures, .index o k => .index (o.fill captures) (k.fill captures)
  | captures, .array es => .array (Code.fillAll captures es)
  | captures, .binary op l r => .binary op (l.fill captures) (r.fill captures)
  | captures, .lambda params body =>
    .lambda params (Stmt.fillAll (captures.without (params ++ bindings body)) body)

def Code.fillAll : Fields → List Code → List Code
  | _, [] => []
  | captures, c :: cs => c.fill captures :: Code.fillAll captures cs

def Stmt.fill : Fields → Stmt → Stmt
  | captures, .letBind name c => .letBind name (c.fill captures)
  | captures, .exportConst name c => .exportConst name (c.fill captures)
  | captures, .expr c => .expr (c.fill captures)
  | captures, .ret c => .ret (c.fill captures)
  | _, .retVoid => .retVoid

/-- The statements of a block, with the captures that are meant inside it. -/
def Stmt.fillAll : Fields → List Stmt → List Stmt
  | _, [] => []
  | captures, s :: ss => s.fill captures :: Stmt.fillAll captures ss

end

/-- The function without captures that has the captured items in its body. -/
def Closure.filled (f : Closure) : Closure :=
  { f with
    body := Stmt.fillAll (f.captures.without (f.locals ++ bindings f.body)) f.body
    captures := [] }

theorem Fields.lookup_without (captures : Fields) (names : List String) (n : String) :
    (captures.without names).lookup n = if n ∈ names then none else captures.lookup n := by
  induction captures with
  | nil => simp [without]
  | cons c captures ih =>
    obtain ⟨name, x⟩ := c
    simp only [without] at ih
    by_cases hc : name ∈ names
    · have hskip : n ∉ names → (n == name) = false := by
        intro hn
        exact beq_false_of_ne fun he => hn (he ▸ hc)
      simp only [without, List.filter_cons, hc, not_true, decide_false, Bool.false_eq_true,
        if_false, ih, List.lookup_cons]
      split
      · rfl
      · rw [hskip ‹_›]
    · simp only [without, List.filter_cons, hc, not_false_eq_true, decide_true, if_true,
        List.lookup_cons, ih]
      by_cases he : n = name
      · subst he
        simp [hc]
      · simp [beq_false_of_ne he]

theorem bindings_fillAll (captures : Fields) (ss : List Stmt) :
    bindings (Stmt.fillAll captures ss) = bindings ss := by
  induction ss with
  | nil => rfl
  | cons s ss ih =>
    simp only [bindings] at ih
    cases s <;> simp [Stmt.fillAll, Stmt.fill, bindings, List.filterMap_cons, Stmt.binding?, ih]

/-- Where `scope` is bound, the first ones are the captures that can still be meant. -/
def Fields.Narrow (inner captures : Fields) (scope : Scope) : Prop :=
  ∀ n, inner.lookup n = if n ∈ scope then none else captures.lookup n

theorem Fields.narrow_self (captures : Fields) : captures.Narrow captures [] :=
  fun n => by simp

theorem Fields.Narrow.inside {inner captures : Fields} {scope : Scope}
    (hi : inner.Narrow captures scope) (params block : List String) :
    (inner.without (params ++ block)).Narrow captures (block ++ (params ++ scope)) := by
  intro n
  rw [Fields.lookup_without, hi n]
  simp only [List.mem_append]
  by_cases hp : n ∈ params
  · simp [hp]
  · by_cases hb : n ∈ block
    · simp [hb]
    · simp [hp, hb]

section Rendering

variable {m : Type → Type} [Monad m] (w : Writer m) {captures : Fields}

mutual

/-- A writer that knows the captures writes what the outer one writes once they are filled in. -/
theorem Code.render_fill (c : Code) {inner : Fields} {scope : Scope}
    (hi : inner.Narrow captures scope) :
    (c.fill inner).render w scope = c.render (w.capturing captures) scope := by
  cases c with
  | lit | comptime => rfl
  | ident name =>
    simp only [Code.fill, Code.render, hi name]
    by_cases hn : name ∈ scope
    · simp [hn, Code.render]
    · simp only [hn, if_false, Writer.capturing]
      cases captures.lookup name with
      | some x => rfl
      | none => simp [Code.render, hn]
  | call c args =>
    simp only [Code.fill, Code.render, c.render_fill hi, Code.renderAll_fillAll args hi]
  | member o name => simp only [Code.fill, Code.render, o.render_fill hi]
  | index o k => simp only [Code.fill, Code.render, o.render_fill hi, k.render_fill hi]
  | array es => simp only [Code.fill, Code.render, Code.renderAll_fillAll es hi]
  | binary op l r => simp only [Code.fill, Code.render, l.render_fill hi, r.render_fill hi]
  | lambda params body =>
    simp only [Code.fill, Code.render, bindings_fillAll,
      Stmt.renderAll_fillAll body (hi.inside params (bindings body))]

theorem Code.renderAll_fillAll (cs : List Code) {inner : Fields} {scope : Scope}
    (hi : inner.Narrow captures scope) :
    Code.renderAll w scope (Code.fillAll inner cs) =
      Code.renderAll (w.capturing captures) scope cs := by
  cases cs with
  | nil => rfl
  | cons c cs =>
    simp only [Code.fillAll, Code.renderAll, c.render_fill hi, Code.renderAll_fillAll cs hi]

theorem Stmt.render_fill (s : Stmt) {inner : Fields} {scope : Scope}
    (hi : inner.Narrow captures scope) :
    (s.fill inner).render w scope = s.render (w.capturing captures) scope := by
  cases s with
  | letBind _ c | exportConst _ c | expr c | ret c =>
    simp only [Stmt.fill, Stmt.render, c.render_fill hi]
  | retVoid => rfl

theorem Stmt.renderAll_fillAll (ss : List Stmt) {inner : Fields} {scope : Scope}
    (hi : inner.Narrow captures scope) :
    Stmt.renderAll w scope (Stmt.fillAll inner ss) =
      Stmt.renderAll (w.capturing captures) scope ss := by
  cases ss with
  | nil => rfl
  | cons s ss =>
    simp only [Stmt.fillAll, Stmt.renderAll, s.render_fill hi, Stmt.renderAll_fillAll ss hi]

end

/-- In any monad, so with the same effects in the same order. -/
theorem Closure.render_filled (f : Closure) : f.filled.render w = f.render w := by
  have hi : (f.captures.without (f.locals ++ bindings f.body)).Narrow f.captures
      (bindings f.body ++ f.locals) := by
    simpa using f.captures.narrow_self.inside f.locals (bindings f.body)
  have hlines : renderBlock (w.capturing f.filled.captures) f.filled.locals f.filled.body =
      renderBlock (w.capturing f.captures) f.locals f.body := by
    have hblock : bindings f.filled.body = bindings f.body := bindings_fillAll _ f.body
    rw [renderBlock, renderBlock, hblock]
    exact Stmt.renderAll_fillAll w f.body hi
  rw [Closure.render, Closure.render, hlines]
  rfl

end Rendering

section Asking

/-- A writer that notes what it is asked for. -/
def Writer.noting : Writer (StateT (List Leaf) (Except Fault)) where
  item x := fun asked => .ok ("", asked ++ [.item x])
  free name := fun asked => .ok ("", asked ++ [.free name])
  comptime a := fun asked => .ok ("", asked ++ [.slot a])

theorem Leaf.run_noting (l : Leaf) (asked : List Leaf) :
    (l.write _ Writer.noting).run asked = .ok ("", asked ++ [l]) := by
  cases l <;> rfl

theorem run_mapM_noting (ls asked : List Leaf) :
    ∃ texts, (ls.mapM fun l : Leaf => l.write _ Writer.noting).run asked =
      .ok (texts, asked ++ ls) := by
  induction ls generalizing asked with
  | nil => exact ⟨[], by rw [List.append_nil]; rfl⟩
  | cons l ls ih =>
    obtain ⟨texts, h⟩ := ih (asked ++ [l])
    refine ⟨"" :: texts, ?_⟩
    have hrest : (do
        let rest ← ls.mapM fun l : Leaf => l.write _ Writer.noting
        return "" :: rest).run (asked ++ [l]) = .ok ("" :: texts, asked ++ l :: ls) := by
      rw [StateT.run_bind, h, List.append_assoc]
      rfl
    rw [List.mapM_cons, StateT.run_bind, Leaf.run_noting]
    exact hrest

/-- The leaves of a function are what its writer is asked for. -/
theorem Closure.run_noting (f : Closure) :
    ∃ text, (f.render Writer.noting).run [] = .ok (text, f.leaves) := by
  obtain ⟨fill, hf⟩ := f.gathers_render
  obtain ⟨texts, h⟩ := run_mapM_noting f.leaves []
  refine ⟨fill texts, ?_⟩
  have hrun := congrArg (StateT.run · []) (hf _ Writer.noting)
  rw [StateT.run_map, h] at hrun
  exact hrun

theorem Closure.leaves_filled (f : Closure) : f.filled.leaves = f.leaves := by
  obtain ⟨text, h⟩ := f.run_noting
  obtain ⟨text', h'⟩ := f.filled.run_noting
  rw [Closure.render_filled, h, Except.ok.injEq, Prod.mk.injEq] at h'
  exact h'.2.symm

end Asking

/-- Captures are a substitution. Filled in, they leave the text and the fault of a function as they
are, and all effects that writing it has in whatever monad; its writer is asked for the same leaves
in the same order; and no identifier that is left free names a capture. -/
theorem Closure.captures_substituted (f : Closure) :
    (∀ {m : Type → Type} [Monad m] (w : Writer m), f.filled.render w = f.render w) ∧
      f.filled.captures = [] ∧ f.filled.leaves = f.leaves ∧
      ∀ name, .free name ∈ f.filled.leaves → f.captures.lookup name = none := by
  refine ⟨fun w => f.render_filled w, rfl, f.leaves_filled, fun name hn => ?_⟩
  rw [f.leaves_filled] at hn
  obtain ⟨l, -, hl⟩ := List.mem_map.mp hn
  cases l with
  | item | slot => cases hl
  | free n =>
    simp only [Leaf.captured] at hl
    cases hc : f.captures.lookup n with
    | some x =>
      rw [hc] at hl
      cases hl
    | none =>
      rw [hc] at hl
      cases hl
      exact hc

/-- A parameter, the name of the function, a binding further down its block and a parameter inside
hide the captures of their names. What is left is one mention of `x`. -/
def hidingClosure : Closure where
  name := "f"
  params := ["p"]
  body := [.expr (.call (.ident "y") [.ident "x", .ident "p", .ident "f"]),
    .letBind "y" (.lambda ["x"] [.ret (.ident "x")]), .ret (.ident "z")]
  captures := [("x", .str "first"), ("x", .str "second"), ("y", .null), ("p", .null), ("f", .null)]

theorem Closure.captures_substituted_hiding :
    hidingClosure.filled.body =
      [.expr (.call (.ident "y") [.lit (.str "first"), .ident "p", .ident "f"]),
        .letBind "y" (.lambda ["x"] [.ret (.ident "x")]), .ret (.ident "z")] ∧
    hidingClosure.filled.leaves = [.item (.str "first"), .free "z"] ∧
    hidingClosure.leaves = [.item (.str "first"), .free "z"] ∧
    hidingClosure.captures.lookup "z" = none := by
  have hleaves : hidingClosure.filled.leaves = [.item (.str "first"), .free "z"] := by rfl
  obtain ⟨-, -, hsame, hfree⟩ := hidingClosure.captures_substituted
  exact ⟨rfl, hleaves, hsame ▸ hleaves, hfree "z" (by simp [hleaves])⟩

end Comptime
