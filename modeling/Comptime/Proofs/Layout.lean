import Comptime.Proofs.Traversal

/-! Run-time code as a sequence of fixed texts and leaves, each leaf with the names that are bound
around it. Writing the parts one after the other gives the text of the code. -/
namespace Comptime

/-- A part of the text of run-time code: fixed text, or a leaf and the names bound around it. -/
inductive Part
  | text (text : String)
  | leaf (scope : Scope) (leaf : Leaf)

namespace Part

/-- Parts with a separator between each two of them. -/
def separated (separator : String) (parts : List (List Part)) : List Part :=
  [text separator].intercalate parts

theorem separated_cons_cons {separator : String} {ps qs : List Part} {parts : List (List Part)} :
    separated separator (ps :: qs :: parts) =
      ps ++ text separator :: separated separator (qs :: parts) := by
  simp [separated, List.intercalate]

def write (w : Writer (Except Fault)) : Part → Except Fault String
  | text s => pure s
  | leaf _ l => l.write _ w

/-- The text of parts that stand one after the other. -/
def writeAll (w : Writer (Except Fault)) (parts : List Part) : Except Fault String :=
  String.join <$> parts.mapM (write w)

variable {w : Writer (Except Fault)}

@[simp]
theorem writeAll_nil : writeAll w [] = pure "" := rfl

theorem writeAll_cons (p : Part) (ps : List Part) :
    writeAll w (p :: ps) = do
      let s ← p.write w
      let t ← writeAll w ps
      return s ++ t := by
  simp [writeAll]

@[simp]
theorem writeAll_text (s : String) (ps : List Part) :
    writeAll w (text s :: ps) = (s ++ ·) <$> writeAll w ps := by
  simp [writeAll_cons, write]

@[simp]
theorem writeAll_leaf (scope : Scope) (l : Leaf) : writeAll w [leaf scope l] = l.write _ w := by
  simp [writeAll_cons, write]

@[simp]
theorem writeAll_append (ps qs : List Part) :
    writeAll w (ps ++ qs) = do
      let s ← writeAll w ps
      let t ← writeAll w qs
      return s ++ t := by
  simp [writeAll]

@[simp]
theorem writeAll_separated (separator : String) (parts : List (List Part)) :
    writeAll w (separated separator parts) =
      separator.intercalate <$> parts.mapM (writeAll w) := by
  induction parts with
  | nil => simp [separated]
  | cons ps parts ih =>
    cases parts with
    | nil => simp [separated]
    | cons qs parts =>
      rw [separated_cons_cons, writeAll_append, writeAll_text, ih]
      simp [String.append_assoc]

end Part

mutual

/-- The parts of a piece of code, from left to right. -/
def Code.layout : Scope → Code → List Part
  | scope, .lit x => [.leaf scope (.item x)]
  | scope, .comptime a => [.leaf scope (.slot a)]
  | scope, .ident name => if name ∈ scope then [.text name] else [.leaf scope (.free name)]
  | scope, .call c args =>
    c.layout scope ++ .text "(" :: Part.separated ", " (Code.layoutAll scope args) ++ [.text ")"]
  | scope, .member o name => o.layout scope ++ [.text ("." ++ name)]
  | scope, .index o k => o.layout scope ++ .text "[" :: k.layout scope ++ [.text "]"]
  | scope, .array es => .text "[" :: Part.separated ", " (Code.layoutAll scope es) ++ [.text "]"]
  | scope, .binary op l r =>
    .text "(" :: l.layout scope ++ .text (" " ++ op.symbol ++ " ") :: r.layout scope ++ [.text ")"]
  | scope, .lambda params body =>
    .text ("((" ++ commas params ++ ") => \x7b ") ::
      Part.separated " " (Stmt.layoutAll (bindings body ++ (params ++ scope)) body) ++
        [.text " \x7d)"]

def Code.layoutAll : Scope → List Code → List (List Part)
  | _, [] => []
  | scope, c :: cs => c.layout scope :: Code.layoutAll scope cs

def Stmt.layout : Scope → Stmt → List Part
  | scope, .letBind name c => .text ("let " ++ name ++ " = ") :: c.layout scope ++ [.text ";"]
  | scope, .exportConst name c =>
    .text ("export const " ++ name ++ " = ") :: c.layout scope ++ [.text ";"]
  | scope, .expr c => c.layout scope ++ [.text ";"]
  | scope, .ret c => .text "return " :: c.layout scope ++ [.text ";"]
  | _, .retVoid => [.text "return;"]

def Stmt.layoutAll : Scope → List Stmt → List (List Part)
  | _, [] => []
  | scope, s :: ss => s.layout scope :: Stmt.layoutAll scope ss

end

section Rendering

variable {w : Writer (Except Fault)}

mutual

theorem Code.render_eq (c : Code) (scope : Scope) :
    c.render w scope = Part.writeAll w (c.layout scope) := by
  cases c with
  | lit x => simp [Code.render, Code.layout, Leaf.write]
  | comptime a => simp [Code.render, Code.layout, Leaf.write]
  | ident name =>
    simp only [Code.render, Code.layout]
    split <;> simp [Leaf.write]
  | call c args =>
    simp [Code.render, Code.layout, c.render_eq scope, Code.renderAll_eq args scope, commas,
      String.append_assoc]
  | member o name => simp [Code.render, Code.layout, o.render_eq scope, String.append_assoc]
  | index o k =>
    simp [Code.render, Code.layout, o.render_eq scope, k.render_eq scope, String.append_assoc]
  | array es =>
    simp [Code.render, Code.layout, Code.renderAll_eq es scope, commas, String.append_assoc]
  | binary op l r =>
    simp [Code.render, Code.layout, l.render_eq scope, r.render_eq scope, String.append_assoc]
  | lambda params body =>
    simp [Code.render, Code.layout, Stmt.renderAll_eq body, String.append_assoc]

theorem Code.renderAll_eq (cs : List Code) (scope : Scope) :
    Code.renderAll w scope cs = (Code.layoutAll scope cs).mapM (Part.writeAll w) := by
  cases cs with
  | nil => simp [Code.renderAll, Code.layoutAll]
  | cons c cs =>
    simp [Code.renderAll, Code.layoutAll, c.render_eq scope, Code.renderAll_eq cs scope]

theorem Stmt.render_eq (s : Stmt) (scope : Scope) :
    s.render w scope = Part.writeAll w (s.layout scope) := by
  cases s with
  | letBind _ c | exportConst _ c | expr c | ret c =>
    simp [Stmt.render, Stmt.layout, c.render_eq scope, String.append_assoc]
  | retVoid => simp [Stmt.render, Stmt.layout]

theorem Stmt.renderAll_eq (ss : List Stmt) (scope : Scope) :
    Stmt.renderAll w scope ss = (Stmt.layoutAll scope ss).mapM (Part.writeAll w) := by
  cases ss with
  | nil => simp [Stmt.renderAll, Stmt.layoutAll]
  | cons s ss =>
    simp [Stmt.renderAll, Stmt.layoutAll, s.render_eq scope, Stmt.renderAll_eq ss scope]

end

end Rendering

/-- The parts of a program. -/
def programParts (p : Program) : List Part :=
  Part.separated "\n" (Stmt.layoutAll (bindings p ++ []) p)

/-- The part as a function with these captures leaves it to its writer. -/
def Part.captured (captures : Fields) : Part → Part
  | text s => text s
  | leaf scope l => leaf scope (l.captured captures)

/-- The parts of a function. A captured item stands wherever its name is free. -/
def Closure.parts (f : Closure) : List Part :=
  if f.body.isEmpty then [.text (f.header ++ " \x7b\x7d")]
  else .text (f.header ++ " \x7b ") ::
    (Part.separated " " (Stmt.layoutAll (bindings f.body ++ f.locals) f.body)).map
      (Part.captured f.captures) ++ [.text " \x7d"]

section Functions

variable {w : Writer (Except Fault)}

theorem renderProgram_eq (p : Program) :
    renderProgram w p = Part.writeAll w (programParts p) := by
  simp [renderProgram, renderBlock, programParts, Stmt.renderAll_eq]

theorem Part.writeAll_capturing (captures : Fields) (ps : List Part) :
    writeAll (w.capturing captures) ps = writeAll w (ps.map (captured captures)) := by
  have hpart (p : Part) : p.write (w.capturing captures) = (p.captured captures).write w := by
    cases p with
    | text s => rfl
    | leaf scope l => exact l.write_capturing w captures
  rw [writeAll, writeAll, List.mapM_map, funext hpart]
  rfl

theorem Closure.render_eq (f : Closure) : f.render w = Part.writeAll w f.parts := by
  have hlines : " ".intercalate <$> renderBlock (w.capturing f.captures) f.locals f.body =
      Part.writeAll w ((Part.separated " "
        (Stmt.layoutAll (bindings f.body ++ f.locals) f.body)).map (.captured f.captures)) := by
    rw [renderBlock, Stmt.renderAll_eq, ← Part.writeAll_separated, Part.writeAll_capturing]
  cases hb : f.body with
  | nil => simp [Closure.render, Closure.parts, renderBlock, Stmt.renderAll, hb]
  | cons s ss =>
    simp only [Closure.parts, hb, List.isEmpty_cons, Bool.false_eq_true, if_false,
      Part.writeAll_text, Part.writeAll_append, List.cons_append] at hlines ⊢
    rw [← hlines]
    simp [Closure.render, renderBlock, Stmt.renderAll, hb, String.append_assoc]

end Functions

mutual

/-- The names that a piece of code binds anywhere inside it. -/
def Code.binders : Code → List String
  | .lit _ | .comptime _ | .ident _ => []
  | .call c args => c.binders ++ Code.bindersAll args
  | .member o _ => o.binders
  | .index o k => o.binders ++ k.binders
  | .array es => Code.bindersAll es
  | .binary _ l r => l.binders ++ r.binders
  | .lambda params body => params ++ Stmt.bindersAll body

def Code.bindersAll : List Code → List String
  | [] => []
  | c :: cs => c.binders ++ Code.bindersAll cs

def Stmt.binders : Stmt → List String
  | .letBind name c | .exportConst name c => name :: c.binders
  | .expr c | .ret c => c.binders
  | .retVoid => []

def Stmt.bindersAll : List Stmt → List String
  | [] => []
  | s :: ss => s.binders ++ Stmt.bindersAll ss

end

/-- The names that a function binds: its own, its parameters and those inside its body. -/
def Closure.binders (f : Closure) : List String := f.locals ++ Stmt.bindersAll f.body

/-- No leaf stands where the name is bound. -/
def Part.Avoids (n : String) (parts : List Part) : Prop :=
  ∀ scope l, .leaf scope l ∈ parts → n ∉ scope

section Avoiding

variable {n : String}

theorem not_mem_bindings {body : List Stmt} (hn : n ∉ Stmt.bindersAll body) :
    n ∉ bindings body := by
  induction body with
  | nil => exact List.not_mem_nil
  | cons s ss ih =>
    rw [Stmt.bindersAll, List.mem_append, not_or] at hn
    have ih := ih hn.2
    rw [bindings, List.filterMap_cons]
    cases s <;> simp_all [Stmt.binding?, Stmt.binders, bindings]

namespace Part

@[simp]
theorem avoids_nil : Avoids n [] := by
  simp [Avoids]

@[simp]
theorem avoids_text {s : String} {ps : List Part} : Avoids n (text s :: ps) ↔ Avoids n ps := by
  simp [Avoids]

@[simp]
theorem avoids_leaf {scope : Scope} {l : Leaf} : Avoids n [leaf scope l] ↔ n ∉ scope := by
  simp [Avoids]

@[simp]
theorem avoids_append {ps qs : List Part} :
    Avoids n (ps ++ qs) ↔ Avoids n ps ∧ Avoids n qs := by
  simp only [Avoids, List.mem_append, or_imp, forall_and]

@[simp]
theorem avoids_separated {separator : String} {parts : List (List Part)} :
    Avoids n (separated separator parts) ↔ ∀ ps ∈ parts, Avoids n ps := by
  induction parts with
  | nil => simp [separated]
  | cons ps parts ih =>
    cases parts with
    | nil => simp [separated]
    | cons qs parts =>
      rw [separated_cons_cons, avoids_append, avoids_text, ih]
      simp

@[simp]
theorem avoids_captured {captures : Fields} {ps : List Part} :
    Avoids n (ps.map (captured captures)) ↔ Avoids n ps := by
  constructor
  · intro h scope l hl
    exact h scope (l.captured captures) (List.mem_map.mpr ⟨_, hl, rfl⟩)
  · intro h scope l hl
    obtain ⟨p, hp, he⟩ := List.mem_map.mp hl
    cases p with
    | text s => cases he
    | leaf scope l =>
      cases he
      exact h _ _ hp

end Part

mutual

theorem Code.avoids_layout (c : Code) {scope : Scope} (hs : n ∉ scope) (hn : n ∉ c.binders) :
    Part.Avoids n (c.layout scope) := by
  cases c with
  | lit | comptime => simpa [Code.layout] using hs
  | ident name =>
    rw [Code.layout]
    split <;> simp [hs]
  | call c args =>
    simp only [Code.binders, List.mem_append, not_or] at hn
    simpa [Code.layout, c.avoids_layout hs hn.1] using Code.avoids_layoutAll args hs hn.2
  | member o _ => simpa [Code.layout] using o.avoids_layout hs hn
  | index o k | binary _ o k =>
    simp only [Code.binders, List.mem_append, not_or] at hn
    simp [Code.layout, o.avoids_layout hs hn.1, k.avoids_layout hs hn.2]
  | array es => simpa [Code.layout] using Code.avoids_layoutAll es hs hn
  | lambda params body =>
    simp only [Code.binders, List.mem_append, not_or] at hn
    have hinner : n ∉ bindings body ++ (params ++ scope) := by
      simp [not_mem_bindings hn.2, hn.1, hs]
    simpa [Code.layout] using Stmt.avoids_layoutAll body hinner hn.2

theorem Code.avoids_layoutAll (cs : List Code) {scope : Scope} (hs : n ∉ scope)
    (hn : n ∉ Code.bindersAll cs) :
    ∀ ps ∈ Code.layoutAll scope cs, Part.Avoids n ps := by
  cases cs with
  | nil => exact List.forall_mem_nil _
  | cons c cs =>
    simp only [Code.bindersAll, List.mem_append, not_or] at hn
    exact List.forall_mem_cons.mpr ⟨c.avoids_layout hs hn.1, Code.avoids_layoutAll cs hs hn.2⟩

theorem Stmt.avoids_layout (s : Stmt) {scope : Scope} (hs : n ∉ scope) (hn : n ∉ s.binders) :
    Part.Avoids n (s.layout scope) := by
  cases s with
  | letBind _ c | exportConst _ c =>
    simp only [Stmt.binders, List.mem_cons, not_or] at hn
    simpa [Stmt.layout] using c.avoids_layout hs hn.2
  | expr c | ret c => simpa [Stmt.layout] using c.avoids_layout hs hn
  | retVoid => simp [Stmt.layout]

theorem Stmt.avoids_layoutAll (ss : List Stmt) {scope : Scope} (hs : n ∉ scope)
    (hn : n ∉ Stmt.bindersAll ss) :
    ∀ ps ∈ Stmt.layoutAll scope ss, Part.Avoids n ps := by
  cases ss with
  | nil => exact List.forall_mem_nil _
  | cons s ss =>
    simp only [Stmt.bindersAll, List.mem_append, not_or] at hn
    exact List.forall_mem_cons.mpr ⟨s.avoids_layout hs hn.1, Stmt.avoids_layoutAll ss hs hn.2⟩

end

theorem avoids_programParts {p : Program} (hn : n ∉ Stmt.bindersAll p) :
    Part.Avoids n (programParts p) := by
  have hscope : n ∉ bindings p ++ [] := by simpa using not_mem_bindings hn
  simpa [programParts] using Stmt.avoids_layoutAll p hscope hn

theorem Closure.avoids_parts {f : Closure} (hn : n ∉ f.binders) : Part.Avoids n f.parts := by
  simp only [Closure.binders, List.mem_append, not_or] at hn
  have hscope : n ∉ bindings f.body ++ f.locals := by
    simp [not_mem_bindings hn.2, hn.1]
  unfold Closure.parts
  split
  · simp
  · simpa using Stmt.avoids_layoutAll f.body hscope hn.2

end Avoiding

end Comptime
