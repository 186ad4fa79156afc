import Comptime.Proofs.Inlining

/-! Writing ends on every graph. An object is written inside another only if it has no binding, and
that cannot go on for ever, so the bound on the nesting is never met: the texts are those of the
recursions without a bound, and there is only one way to solve these. -/
namespace Comptime.Output

variable {out : Output} {start : List Handle} {h k : Handle} {x : Item}

/-- The one object is written inside the other, which can be reached. -/
def Inside (out : Output) (start : List Handle) (k h : Handle) : Prop :=
  out.heap.Reach start h ∧ Tracker.Nests out.heap out.tracker h k

/-- The recursions that write objects in place and in definitions, without a bound: each answer is
made of the answers for the objects inside. -/
structure Solves (out : Output) (start : List Handle) (expand : Handle → Except Fault String)
    (define : String → Handle → Except Fault (List Piece)) : Prop where
  expand_eq : ∀ {h}, out.heap.Reach start h → expand h = out.expandWith expand h
  define_eq : ∀ {h}, out.heap.Reach start h → ∀ path,
    define path h = out.defineWith define path (out.spell expand) h

section Descent

theorem child_congr {f g : String → Handle → Except Fault (List Piece)} {c : Child} {path : String}
    (hc : ∀ k path, c.2 = .ref k → out.tracker.isTracked k = false → f path k = g path k) :
    out.child f path c = out.child g path c := by
  obtain ⟨place, x⟩ := c
  cases x with
  | ref k =>
    simp only [child]
    split
    · rfl
    · rename_i hn
      exact hc k _ rfl (by simpa using hn)
  | _ => rfl

/-- The definition of an object depends on the definitions of the objects inside it only; that of a
function depends on the texts of the items it holds. -/
theorem defineWith_congr {f g : String → Handle → Except Fault (List Piece)}
    {item item' : Item → Except Fault String} {path : String}
    (hf : ∀ k path, Tracker.Nests out.heap out.tracker h k → f path k = g path k)
    (hi : ∀ x ∈ out.heap.items h, item x = item' x) :
    out.defineWith f path item h = out.defineWith g path item' h := by
  cases ho : out.heap.get? h with
  | none => simp only [defineWith, ho]
  | some o =>
    cases o with
    | function f =>
      simp only [defineWith, ho]
      congr 1
      refine f.gathers_render.congr _ _ fun l hl => ?_
      cases l with
      | item x => exact hi x (Heap.items_of_get? ho ▸ Object.mem_items_of_leaf hl)
      | free | slot => rfl
    | seq | type | anchor | feature | record =>
      refine (gathers_defineWith ho (by simp)).congr ⟨f, item⟩ ⟨g, item'⟩ fun c hc => ?_
      have hmem : c.2 ∈ out.heap.items h := Heap.items_of_get? ho ▸ List.mem_map_of_mem hc
      exact child_congr fun k path he hn => hf k path ⟨mem_refsOf.mpr (he ▸ hmem), hn⟩

end Descent

section Bound

variable (hends : ∀ {h}, out.heap.Reach start h →
  ¬Relation.TransGen (Tracker.Nests out.heap out.tracker) h h)
include hends

theorem wellFounded_inside : WellFounded (out.Inside start) :=
  Subrelation.wf (fun hi => Tracker.height_lt hi.2 (hends hi.1))
    (measure (Tracker.height out.heap out.tracker)).wf

theorem grounded (hr : out.heap.Reach start h) : out.Grounded h := by
  induction h using (wellFounded_inside hends).induction with
  | _ h ih =>
    refine ⟨h, fun k hk => ?_⟩
    have hn := Tracker.nests_of_mem_inlined hk.2
    exact ih k ⟨hr, hn⟩ (.step hr hn.1)

/-- One more level changes nothing once all nested objects have theirs. -/
theorem defineWithin_succ (hr : out.heap.Reach start h) {depth : Nat}
    (hd : Tracker.height out.heap out.tracker h < depth) (path : String) :
    out.defineWithin (depth + 1) path h = out.defineWithin depth path h := by
  induction depth generalizing h path with
  | zero => exact absurd hd (Nat.not_lt_zero _)
  | succ depth ih =>
    rw [defineWithin_succ_eq, defineWithin_succ_eq]
    refine defineWith_congr (fun k path hk => ih (.step hr hk.1) ?_ path) fun _ _ => rfl
    have hlt := Tracker.height_lt hk (hends hr)
    omega

theorem solves_within :
    out.Solves start (out.expandWithin out.depth) (out.defineWithin out.depth) where
  expand_eq hr := (grounded hends hr).expandWithin_depth
  define_eq hr path :=
    (defineWithin_succ hends hr (Nat.lt_succ_of_le Tracker.height_le) path).symm.trans
      (out.defineWithin_succ_eq _ path _)

variable {expand expand' : Handle → Except Fault String}
  {define define' : String → Handle → Except Fault (List Piece)}

theorem Solves.expand_unique (hs : out.Solves start expand define)
    (hs' : out.Solves start expand' define') (hr : out.heap.Reach start h) :
    expand h = expand' h :=
  Output.expand_unique (fun hr hk => .step hr (Tracker.nests_of_mem_inlined hk.2).1) hs.expand_eq
    hs'.expand_eq (grounded hends hr) hr

theorem Solves.spell_unique (hs : out.Solves start expand define)
    (hs' : out.Solves start expand' define') (hx : ∀ k, x = .ref k → out.heap.Reach start k) :
    out.spell expand x = out.spell expand' x :=
  spell_lift fun k he _ => hs.expand_unique hends hs' (hx k he)

theorem Solves.define_unique (hs : out.Solves start expand define)
    (hs' : out.Solves start expand' define') (hr : out.heap.Reach start h) (path : String) :
    define path h = define' path h := by
  induction h using (wellFounded_inside hends).induction generalizing path with
  | _ h ih =>
    rw [hs.define_eq hr, hs'.define_eq hr]
    refine defineWith_congr (fun k path hk => ih k ⟨hr, hk⟩ (.step hr hk.1) path) fun x hx => ?_
    exact hs.spell_unique hends hs' fun k he => .step hr (mem_refsOf.mpr (he ▸ hx))

/-- A function is written alike with both. -/
theorem Solves.render_unique (hs : out.Solves start expand define)
    (hs' : out.Solves start expand' define') (hr : out.heap.Reach start h) {f : Closure}
    (hf : out.heap.get? h = some (.function f)) :
    f.render (plainWriter (out.spell expand)) = f.render (plainWriter (out.spell expand')) := by
  refine f.gathers_render.congr _ _ fun l hl => ?_
  cases l with
  | item x =>
    have hmem : x ∈ out.heap.items h := Heap.items_of_get? hf ▸ Object.mem_items_of_leaf hl
    exact hs.spell_unique hends hs' fun k he => .step hr (mem_refsOf.mpr (he ▸ hmem))
  | free | slot => rfl

theorem shallow_inline (hx : ∀ k, x = .ref k → out.heap.Reach start k) : Shallow (out.inline x) :=
  failsWith_spell shallow_literal fun k he _ => (grounded hends (hx k he)).shallow_expandWithin

theorem shallow_defineWithin (hr : out.heap.Reach start h) (path : String) :
    Shallow (out.defineWithin out.depth path h) := by
  induction h using (wellFounded_inside hends).induction generalizing path with
  | _ h ih =>
    rw [(solves_within hends).define_eq hr]
    refine failsWith_defineWith (fun _ _ => shallow_literal) (fun _ _ => Fault.noConfusion)
      (fun path k hk => ?_) (fun x hx => shallow_inline hends fun k he => ?_)
      fun _ => Fault.noConfusion
    · have hn := Tracker.nests_of_mem_inlined hk
      exact ih k ⟨hr, hn⟩ (.step hr hn.1) path
    · exact .step hr (mem_refsOf.mpr (Heap.mem_items_of_use (he ▸ hx)))

end Bound

/-- Writing what can be reached is a well-founded recursion: nothing is nested without end, and the
recursions without a bound have one solution, which is what is written. -/
structure Terminates (out : Output) (start : List Handle) : Prop where
  wellFounded : WellFounded (out.Inside start)
  solves : out.Solves start (out.expandWithin out.depth) (out.defineWithin out.depth)
  item_unique : ∀ {expand define}, out.Solves start expand define →
    ∀ x, (∀ k, x = .ref k → out.heap.Reach start k) → out.spell expand x = out.inline x
  child_unique : ∀ {expand define}, out.Solves start expand define →
    ∀ path c, (∀ k, c.2 = .ref k → out.heap.Reach start k) →
      out.child define path c = out.child (out.defineWithin out.depth) path c
  define_unique : ∀ {expand define}, out.Solves start expand define →
    ∀ path h, out.heap.Reach start h → define path h = out.defineWithin out.depth path h
  render_unique : ∀ {expand define}, out.Solves start expand define →
    ∀ h f, out.heap.Reach start h → out.heap.get? h = some (.function f) →
      f.render (plainWriter (out.spell expand)) = f.render out.writer
  item_shallow : ∀ x, (∀ k, x = .ref k → out.heap.Reach start k) → Shallow (out.inline x)
  define_shallow : ∀ path h, out.heap.Reach start h → Shallow (out.defineWithin out.depth path h)

theorem terminates_of_not_nests (hends : ∀ {h}, out.heap.Reach start h →
    ¬Relation.TransGen (Tracker.Nests out.heap out.tracker) h h) : out.Terminates start where
  wellFounded := wellFounded_inside hends
  solves := solves_within hends
  item_unique hs _ hx := hs.spell_unique hends (solves_within hends) hx
  child_unique hs _ _ hc :=
    child_congr fun k path he _ => hs.define_unique hends (solves_within hends) (hc k he) path
  define_unique hs path _ hr := hs.define_unique hends (solves_within hends) hr path
  render_unique hs _ _ hr hf := hs.render_unique hends (solves_within hends) hr hf
  item_shallow _ hx := shallow_inline hends hx
  define_shallow path _ hr := shallow_defineWithin hends hr path

/-- Emission ends on every graph, whatever cycles it has and whatever was tracked: once the tracker
is closed, every cycle that can be reached holds an object with a binding. -/
theorem terminates_run_close (heap : Heap) (calls : List Tracker.Call) (name : Nat → String) :
    (Output.mk heap (Tracker.run heap {} (calls ++ [.close])) name).Terminates
      (Tracker.starts calls) := by
  obtain ⟨done, hl, hq⟩ := Tracker.ledger_run_close heap calls
  exact terminates_of_not_nests fun hr => hl.not_nests_self hq hr

end Comptime.Output
