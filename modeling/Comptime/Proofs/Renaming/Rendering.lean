import Comptime.Emit.Closure
import Comptime.Fault
import Comptime.Proofs.Renaming.Basic
import Mathlib.Data.List.Forall2

/-! Fallible computations that agree up to their faults, and the text of renamed code. -/
namespace Comptime

/-- Where the first succeeds so does the second, with related results. With `back`, the first also
succeeds where the second does. Their faults are not compared: those may name handles. -/
def Agrees (back : Prop) {α β : Type} (R : α → β → Prop) : Except Fault α → Except Fault β → Prop
  | .ok a, .ok b => R a b
  | .ok _, .error _ => False
  | .error _, .ok _ => ¬back
  | .error _, .error _ => True

namespace Agrees

variable {back : Prop} {α β γ δ : Type} {R : α → β → Prop} {S : γ → δ → Prop}
  {x : Except Fault α} {y : Except Fault β}

theorem pure {a : α} {b : β} (h : R a b) : Agrees back R (Pure.pure a) (Pure.pure b) := h

theorem refl (x : Except Fault α) : Agrees back Eq x x := by
  cases x with
  | ok a => exact rfl
  | error e => exact trivial

theorem mono {Q : α → β → Prop} (h : Agrees back R x y) (hq : ∀ a b, R a b → Q a b) :
    Agrees back Q x y := by
  cases x <;> cases y <;> first | exact h | exact hq _ _ h

theorem bind {f : α → Except Fault γ} {g : β → Except Fault δ} (h : Agrees back R x y)
    (hfg : ∀ a b, R a b → Agrees back S (f a) (g b)) : Agrees back S (x >>= f) (y >>= g) := by
  cases x with
  | ok a =>
    cases y with
    | ok b => exact hfg a b h
    | error e => exact h.elim
  | error e =>
    cases y with
    | ok b =>
      change Agrees back S (.error e) (g b)
      cases g b with
      | ok d => exact h
      | error e => trivial
    | error e => trivial

theorem bind_eq {y : Except Fault α} {f : α → Except Fault γ} {g : α → Except Fault δ}
    (h : Agrees back Eq x y) (hfg : ∀ a, Agrees back S (f a) (g a)) :
    Agrees back S (x >>= f) (y >>= g) :=
  h.bind fun a _ he => he ▸ hfg a

theorem mapM {f : α → Except Fault γ} {g : β → Except Fault δ} {m : α → β} {l : List α}
    (h : ∀ a ∈ l, Agrees back S (f a) (g (m a))) :
    Agrees back (List.Forall₂ S) (l.mapM f) ((l.map m).mapM g) := by
  induction l with
  | nil => exact List.Forall₂.nil
  | cons a l ih =>
    simp only [List.map_cons, List.mapM_cons]
    have ha := h a List.mem_cons_self
    have hl := ih fun b hb => h b (List.mem_cons_of_mem a hb)
    exact ha.bind fun c d hcd => hl.bind fun cs ds hs => .cons hcd hs

theorem mapM_eq {f : α → Except Fault γ} {g : β → Except Fault γ} {m : α → β} {l : List α}
    (h : ∀ a ∈ l, Agrees back Eq (f a) (g (m a))) :
    Agrees back Eq (l.mapM f) ((l.map m).mapM g) :=
  (mapM h).mono fun _ _ hs => List.forall₂_eq_eq_eq ▸ hs

theorem exists_ok (h : Agrees back R x y) {a : α} (hx : x = .ok a) : ∃ b, y = .ok b ∧ R a b := by
  subst hx
  cases y with
  | ok b => exact ⟨b, rfl, h⟩
  | error e => exact h.elim

theorem trans_eq {z : Except Fault β} (h : Agrees back R x y) (hz : Agrees back Eq y z) :
    Agrees back R x z := by
  cases x with
  | ok a =>
    obtain ⟨b, hb, hr⟩ := h.exists_ok rfl
    obtain ⟨_, rfl, rfl⟩ := hz.exists_ok hb
    exact hr
  | error e =>
    cases z with
    | error e => trivial
    | ok b =>
      cases y with
      | ok c => exact h
      | error e => exact hz

theorem eq_trans {w : Except Fault α} (hw : Agrees back Eq w x) (h : Agrees back R x y) :
    Agrees back R w y := by
  cases w with
  | ok a =>
    obtain ⟨_, rfl, rfl⟩ := hw.exists_ok rfl
    exact h
  | error e =>
    cases y with
    | error e => trivial
    | ok b =>
      cases x with
      | ok c => exact hw
      | error e => exact h

/-- Agreement in one direction, said without cases. -/
theorem false_iff {y : Except Fault α} :
    Agrees False Eq x y ↔ ∀ a, x = .ok a → y = .ok a := by
  constructor
  · intro h a hx
    obtain ⟨b, hy, rfl⟩ := h.exists_ok hx
    exact hy
  · intro h
    cases x with
    | ok a =>
      rw [h a rfl]
      exact rfl
    | error e => cases y <;> simp [Agrees]

theorem of_false {y : Except Fault α} (h : Agrees False Eq x y) (h' : Agrees False Eq y x) :
    Agrees back Eq x y := by
  cases x with
  | ok a =>
    rw [false_iff.mp h a rfl]
    exact rfl
  | error e =>
    cases y with
    | ok b => exact nomatch (false_iff.mp h') b rfl
    | error e => trivial

theorem ok_iff {y : Except Fault α} (h : Agrees True Eq x y) (a : α) : x = .ok a ↔ y = .ok a := by
  cases x with
  | ok b =>
    obtain ⟨c, rfl, rfl⟩ := h.exists_ok rfl
    exact Iff.rfl
  | error e =>
    cases y with
    | ok b => exact absurd trivial h
    | error e => simp

end Agrees

@[simp]
theorem bindings_rename {r : Renaming} (body : List Stmt) :
    bindings (Stmt.renameAll r body) = bindings body := by
  induction body with
  | nil => rfl
  | cons s ss ih =>
    have hs : (s.rename r).binding? = s.binding? := by cases s <;> rfl
    simp only [bindings, Stmt.renameAll, List.filterMap_cons, hs] at ih ⊢
    rw [ih]

/-- The writers agree on free identifiers and on slots. Whether they agree on items is asked for
each item apart. -/
structure Writer.Agrees (back : Prop) (r : Renaming) (w w' : Writer (Except Fault)) : Prop where
  free : ∀ name, Comptime.Agrees back Eq (w.free name) (w'.free name)
  comptime : ∀ a, Comptime.Agrees back Eq (w.comptime a) (w'.comptime (r.slot a))

section

variable {back : Prop} {r : Renaming} {w w' : Writer (Except Fault)}

mutual

theorem Code.agrees_render (hw : w.Agrees back r w') (c : Code) (scope : Scope)
    (hi : ∀ x ∈ c.items, Agrees back Eq (w.item x) (w'.item (x.rename r))) :
    Agrees back Eq (c.render w scope) ((c.rename r).render w' scope) := by
  cases c with
  | lit x => exact hi x (List.mem_singleton_self x)
  | comptime a => exact hw.comptime a
  | ident name =>
    simp only [Code.rename, Code.render]
    split
    · exact .pure rfl
    · exact hw.free name
  | call c args =>
    simp only [Code.items, List.forall_mem_append] at hi
    have hc := c.agrees_render hw scope hi.1
    have hargs := Code.agrees_renderAll hw args scope hi.2
    exact hc.bind_eq fun f => hargs.bind_eq fun parts => .pure rfl
  | member o name =>
    have ho := o.agrees_render hw scope hi
    exact ho.bind_eq fun obj => .pure rfl
  | index o k =>
    simp only [Code.items, List.forall_mem_append] at hi
    have ho := o.agrees_render hw scope hi.1
    have hk := k.agrees_render hw scope hi.2
    exact ho.bind_eq fun obj => hk.bind_eq fun key => .pure rfl
  | array es =>
    have hes := Code.agrees_renderAll hw es scope hi
    exact hes.bind_eq fun parts => .pure rfl
  | binary op a b =>
    simp only [Code.items, List.forall_mem_append] at hi
    have ha := a.agrees_render hw scope hi.1
    have hb := b.agrees_render hw scope hi.2
    exact ha.bind_eq fun lhs => hb.bind_eq fun rhs => .pure rfl
  | lambda params body =>
    have hbody := Stmt.agrees_renderAll hw body (bindings body ++ (params ++ scope)) hi
    simp only [Code.rename, Code.render, bindings_rename]
    exact hbody.bind_eq fun lines => .pure rfl

theorem Code.agrees_renderAll (hw : w.Agrees back r w') (cs : List Code) (scope : Scope)
    (hi : ∀ x ∈ Code.itemsAll cs, Agrees back Eq (w.item x) (w'.item (x.rename r))) :
    Agrees back Eq (Code.renderAll w scope cs) (Code.renderAll w' scope (Code.renameAll r cs)) := by
  cases cs with
  | nil => exact .pure rfl
  | cons c cs =>
    simp only [Code.itemsAll, List.forall_mem_append] at hi
    have hc := c.agrees_render hw scope hi.1
    have hcs := Code.agrees_renderAll hw cs scope hi.2
    exact hc.bind_eq fun part => hcs.bind_eq fun parts => .pure rfl

theorem Stmt.agrees_render (hw : w.Agrees back r w') (s : Stmt) (scope : Scope)
    (hi : ∀ x ∈ s.items, Agrees back Eq (w.item x) (w'.item (x.rename r))) :
    Agrees back Eq (s.render w scope) ((s.rename r).render w' scope) := by
  cases s with
  | letBind _ c | exportConst _ c | expr c | ret c =>
    have hc := c.agrees_render hw scope hi
    exact hc.bind_eq fun text => .pure rfl
  | retVoid => exact .pure rfl

theorem Stmt.agrees_renderAll (hw : w.Agrees back r w') (ss : List Stmt) (scope : Scope)
    (hi : ∀ x ∈ Stmt.itemsAll ss, Agrees back Eq (w.item x) (w'.item (x.rename r))) :
    Agrees back Eq (Stmt.renderAll w scope ss) (Stmt.renderAll w' scope (Stmt.renameAll r ss)) := by
  cases ss with
  | nil => exact .pure rfl
  | cons s ss =>
    simp only [Stmt.itemsAll, List.forall_mem_append] at hi
    have hs := s.agrees_render hw scope hi.1
    have hss := Stmt.agrees_renderAll hw ss scope hi.2
    exact hs.bind_eq fun line => hss.bind_eq fun lines => .pure rfl

end

theorem agrees_renderBlock (hw : w.Agrees back r w') (scope : Scope) (body : List Stmt)
    (hi : ∀ x ∈ Stmt.itemsAll body, Agrees back Eq (w.item x) (w'.item (x.rename r))) :
    Agrees back Eq (renderBlock w scope body) (renderBlock w' scope (Stmt.renameAll r body)) := by
  simp only [renderBlock, bindings_rename]
  exact Stmt.agrees_renderAll hw body _ hi

/-- The writers inside a function agree if those around it do, also on the captured items. -/
theorem Writer.Agrees.capturing (hw : w.Agrees back r w') {captures : Fields}
    (hi : ∀ x ∈ captures.map Prod.snd, Comptime.Agrees back Eq (w.item x) (w'.item (x.rename r))) :
    (w.capturing captures).Agrees back r (w'.capturing (Fields.rename r captures)) where
  comptime := hw.comptime
  free name := by
    simp only [Writer.capturing, lookup_rename]
    cases hx : captures.lookup name with
    | none => exact hw.free name
    | some x =>
      obtain ⟨l, l', rfl, -⟩ := List.lookup_eq_some_iff.mp hx
      exact hi x (by simp)

theorem Closure.agrees_render (hw : w.Agrees back r w') (f : Closure)
    (hi : ∀ x ∈ (Object.function f).children.map Prod.snd,
      Agrees back Eq (w.item x) (w'.item (x.rename r))) :
    Agrees back Eq (f.render w) ((f.rename r).render w') := by
  simp only [Object.children, List.map_append, List.forall_mem_append] at hi
  have hcap : (named .capture f.captures).map Prod.snd = f.captures.map Prod.snd := by
    simp [named]
  have hbody : (indexed .bodyItem (Stmt.itemsAll f.body)).map Prod.snd = Stmt.itemsAll f.body := by
    simp [indexed, Function.comp_def]
  rw [hcap, hbody] at hi
  have hlines := agrees_renderBlock (hw.capturing hi.1) f.locals f.body hi.2
  refine hlines.bind_eq fun lines => ?_
  split <;> exact .pure rfl

end

end Comptime
