import Comptime.Proofs.Faults.Emission
import Mathlib

/-! Objects in place. The text of an object is made of the texts of the objects inside it, and
wherever this comes to an end the bound on the nesting is never met: the text is that of the
recursion without a bound, in the primary module and in the companion, and making it changes
nothing. -/
namespace Comptime

namespace Output

variable {out : Output} {h k : Handle} {x : Item} {m : Type → Type} [Monad m] [LawfulMonad m]
  [MonadLiftT (Except Fault) m] [LawfulMonadLiftT (Except Fault) m] {f : Handle → m String}
  {g : Handle → Except Fault String}

theorem expandWith_lift (hf : ∀ k, out.Inlines h k → f k = liftM (g k)) :
    out.expandWith f h = liftM (out.expandWith g h) :=
  expandWith_lift_of_inlined fun _ ho hi k hk => hf k ⟨by simp [Heap.isInlinable, ho, hi], hk⟩

/-- Writing the object in place comes to an end. -/
def Grounded (out : Output) (h : Handle) : Prop := Acc (fun k h => out.Inlines h k) h

/-- Two solutions of the recursion without a bound agree, by induction along the nesting, on
whatever objects they are solutions for. -/
theorem expand_unique {S : Handle → Prop} (hS : ∀ {h k}, S h → out.Inlines h k → S k)
    (hf : ∀ {h}, S h → f h = out.expandWith f h) (hg : ∀ {h}, S h → g h = out.expandWith g h)
    (ha : out.Grounded h) (hs : S h) : f h = liftM (g h) := by
  induction ha with
  | intro h _ ih =>
    rw [hf hs, hg hs]
    exact expandWith_lift fun k hk => ih k hk (hS hs hk)

section Bound

theorem Grounded.not_cycle (ha : out.Grounded h) : ¬Relation.TransGen out.Inlines h h := by
  induction ha with
  | intro h _ ih =>
    intro hcycle
    obtain ⟨k, hk, hreach⟩ := Relation.TransGen.head'_iff.mp hcycle
    exact ih k hk (.tail' hreach hk)

open Classical in
/-- How many objects can be met in writing an object in place. -/
noncomputable def nesting (out : Output) (h : Handle) : Nat :=
  Finset.card {k ∈ Finset.range out.heap.size | Relation.ReflTransGen out.Inlines h k}

theorem nesting_lt_depth : out.nesting h < out.depth := by
  classical
  unfold nesting depth
  exact Nat.lt_succ_of_le ((Finset.card_filter_le _ _).trans_eq (Finset.card_range _))

theorem Grounded.nesting_lt (ha : out.Grounded h) (hk : out.Inlines h k) :
    out.nesting k < out.nesting h := by
  classical
  exact Tracker.card_reach_lt hk (Heap.lt_of_isInlinable hk.1) ha.not_cycle

/-- One more level changes nothing once all nested objects have theirs. -/
theorem Grounded.expandWithin_succ (ha : out.Grounded h) {depth : Nat}
    (hd : out.nesting h < depth) : out.expandWithin (depth + 1) h = out.expandWithin depth h := by
  induction depth generalizing h with
  | zero => exact absurd hd (Nat.not_lt_zero _)
  | succ depth ih =>
    refine expandWith_lift fun k hk => ih (ha.inv hk) ?_
    have hlt := ha.nesting_lt hk
    omega

/-- The bounded recursion solves the one without a bound. -/
theorem Grounded.expandWithin_depth (ha : out.Grounded h) :
    out.expandWithin out.depth h = out.expandWith (out.expandWithin out.depth) h :=
  (ha.expandWithin_succ nesting_lt_depth).symm

/-- A text that is made without meeting the bound on the nesting. -/
abbrev Shallow {α : Type} (text : Except Fault α) : Prop := FailsWith (· ≠ .tooDeep) text

theorem shallow_literal : Shallow x.literal := by
  intro e he
  cases x with
  | bool b => cases b <;> cases he
  | absent | hole =>
    cases he
    exact Fault.noConfusion
  | _ => cases he

theorem Grounded.shallow_expandWithin (ha : out.Grounded h) :
    Shallow (out.expandWithin out.depth h) := by
  induction ha with
  | intro h hin ih =>
    rw [Grounded.expandWithin_depth ⟨h, hin⟩]
    exact failsWith_expandWith (fun _ _ => shallow_literal) (fun _ _ => Fault.noConfusion) ih
      fun _ _ => Fault.noConfusion

end Bound

/-- The recursion that writes objects in place, without a bound. -/
def Writes (out : Output) (expand : Handle → m String) : Prop :=
  ∀ {h}, out.Grounded h → expand h = out.expandWith expand h

/-- Writing these items in place comes to an end. -/
def Ends (out : Output) (items : List Item) : Prop :=
  ∀ h ∈ out.tracker.unnamed items, out.Grounded h

theorem writes_within : out.Writes (out.expandWithin out.depth) := fun ha => ha.expandWithin_depth

/-- A solution may run in any other monad. -/
theorem Writes.lift (hg : out.Writes g) : out.Writes fun h => (liftM (g h) : m String) := by
  intro h ha
  exact (congrArg liftM (hg ha)).trans (expandWith_lift fun _ _ => rfl).symm

/-- An item is written as it is without the other means of the monad. -/
theorem Writes.spell_eq (hf : out.Writes f) (hx : out.Ends [x]) :
    out.spell f x = liftM (out.inline x) := by
  refine spell_lift fun k he hn => expand_unique (fun ha hk => ha.inv hk) hf writes_within ?_ ?_
  all_goals exact hx k (Tracker.mem_unnamed.mpr ⟨by simp [he], hn⟩)

theorem Ends.of_leaf {c : Closure} (hc : out.Ends (c.leaves.filterMap Leaf.item?))
    (hl : .item x ∈ c.leaves) : out.Ends [x] := by
  intro k hk
  obtain ⟨he, hn⟩ := Tracker.mem_unnamed.mp hk
  obtain rfl := List.mem_singleton.mp he
  exact hc k (Tracker.mem_unnamed.mpr ⟨List.mem_filterMap.mpr ⟨_, hl, rfl⟩, hn⟩)

theorem Writes.render_eq (hf : out.Writes f) {c : Closure}
    (hc : out.Ends (c.leaves.filterMap Leaf.item?)) :
    c.render (plainWriter (out.spell f)) = liftM (c.render out.writer) := by
  refine c.gathers_render.lift _ _ fun l hl => ?_
  cases l with
  | item x => exact hf.spell_eq (hc.of_leaf hl)
  | free name => exact (liftM_pure _).symm
  | slot a => rfl

theorem Ends.shallow_inline (hx : out.Ends [x]) : Shallow (out.inline x) :=
  failsWith_spell shallow_literal fun k he hn =>
    (hx k (Tracker.mem_unnamed.mpr ⟨by simp [he], hn⟩)).shallow_expandWithin

theorem Ends.shallow_render {c : Closure} (hc : out.Ends (c.leaves.filterMap Leaf.item?)) :
    Shallow (c.render out.writer) :=
  c.failsWith_render (fun name => .pure name) (fun _ hl => (hc.of_leaf hl).shallow_inline)
    fun _ _ => .throw Fault.noConfusion

end Output

section Companion

/-- The naming with which the companion calls its bindings what the primary module calls them. -/
def Naming.throughImport (n : Naming) : Naming := { n with stem := n.importName ++ "." ++ n.stem }

theorem companionOutput_throughImport (heap : Heap) (t : Tracker) (names : Naming) :
    companionOutput heap t names.throughImport = primaryOutput heap t names := by
  have hname : names.throughImport.binding = names.imported := by
    funext id
    simp [Naming.binding, Naming.imported, Naming.throughImport, String.append_assoc]
  rw [companionOutput, hname, primaryOutput]

/-- In place the companion writes an item or a function as the primary module does, with the same
text or the same fault, whatever is bound; it adds no patch. Both follow the recursion without a
bound, and any two solutions of it will do. -/
theorem companion_writes_as_primary (heap : Heap) (t : Tracker) (names : Naming) :
    let primary := primaryOutput heap t names
    let companion := companionOutput heap t names.throughImport
    (∀ d : Assembly,
      (∀ x, (companion.convert x).run.run d = (primary.inline x, d)) ∧
      ∀ f : Closure, (f.render (plainWriter companion.convert)).run.run d =
        (f.render primary.writer, d)) ∧
    (companion.convert = companion.spell fun h =>
      (liftM (companion.expandWithin companion.depth h) : Assembling String)) ∧
    (∀ x, primary.Ends [x] →
      companion.inline x = primary.inline x ∧ Output.Shallow (primary.inline x)) ∧
    (∀ f : Closure, primary.Ends (f.leaves.filterMap Leaf.item?) →
      f.render companion.writer = f.render primary.writer ∧
        Output.Shallow (f.render primary.writer)) ∧
    primary.Writes (primary.expandWithin primary.depth) ∧
    companion.Writes
      (fun h => (liftM (companion.expandWithin companion.depth h) : Assembling String)) ∧
    ∀ (text : Handle → Except Fault String) (expand : Handle → Assembling String),
      primary.Writes text → companion.Writes expand → ∀ d : Assembly,
        (∀ x, primary.Ends [x] →
          (companion.spell expand x).run.run d = (primary.spell text x, d)) ∧
        ∀ f : Closure, primary.Ends (f.leaves.filterMap Leaf.item?) →
          (f.render (plainWriter (companion.spell expand))).run.run d =
            (f.render (plainWriter (primary.spell text)), d) := by
  intro primary companion
  have he : companion = primary := companionOutput_throughImport heap t names
  rw [he]
  refine ⟨fun d => ⟨fun x => primary.run_convert x d, fun f => primary.run_render_convert f d⟩,
    primary.convertWithin_eq_spell primary.depth, fun x hx => ⟨rfl, hx.shallow_inline⟩,
    fun f hf => ⟨rfl, hf.shallow_render⟩, Output.writes_within, Output.writes_within.lift,
    fun text expand htext hexpand d => ⟨fun x hx => ?_, fun f hf => ?_⟩⟩
  · rw [hexpand.spell_eq hx, htext.spell_eq hx]
    rfl
  · rw [hexpand.render_eq hf, htext.render_eq hf]
    rfl

/-- A sequence that holds a function, which has captured a record that holds the sequence. -/
def knot : Heap :=
  ⟨#[.seq [.ref 1], .function ⟨"", [], [.ret (.ident "x")], [("x", .ref 2)]⟩,
    .record [] [("all", .ref 0)]]⟩

/-- The record has a binding, or there would be no end. -/
theorem companion_writes_as_primary_knot :
    let primary := primaryOutput knot (Tracker.add {} 2) {}
    let companion := companionOutput knot (Tracker.add {} 2) (Naming.throughImport {})
    primary.Ends [.ref 0] ∧
      primary.inline (.ref 0) = .ok "[function () \x7b return __items.item0; \x7d]" ∧
      (∀ d : Assembly, (companion.convert (.ref 0)).run.run d = (primary.inline (.ref 0), d)) ∧
      ∀ expand : Handle → Assembling String, companion.Writes expand → ∀ d : Assembly,
        (companion.spell expand (.ref 0)).run.run d = (primary.inline (.ref 0), d) := by
  intro primary companion
  have hfunction : Tracker.inlined knot (Tracker.add {} 2) 1 = [] := by cbv
  have hsequence : Tracker.inlined knot (Tracker.add {} 2) 0 = [1] := by cbv
  have hitem : (Tracker.add {} 2).unnamed [.ref 0] = [0] := by cbv
  have hends : primary.Ends [.ref 0] := by
    intro h hh
    obtain rfl := List.mem_singleton.mp (hitem ▸ hh)
    refine ⟨_, fun k hk => ?_⟩
    obtain rfl := List.mem_singleton.mp (hsequence ▸ hk.2)
    exact ⟨_, fun k hk => absurd (hfunction ▸ hk.2) List.not_mem_nil⟩
  obtain ⟨hconvert, -, -, -, hwrites, -, h⟩ :=
    companion_writes_as_primary knot (Tracker.add {} 2) {}
  exact ⟨hends, by cbv, fun d => (hconvert d).1 _,
    fun expand hexpand d => (h _ expand hwrites hexpand d).1 _ hends⟩

end Companion

end Comptime
