import Comptime.Emit.Modules
import Comptime.Proofs.BindingOrder
import Comptime.Proofs.Faults.Rendering
import Comptime.Proofs.Untracked

/-! What can go wrong in emission. If all items that can be reached are known, every one of them can
be written, at whatever depth; all that can be left is a function that still refers to a slot. -/
namespace Comptime

variable {P : Fault → Prop} {x : Item} {h k : Handle}

/-- A known primitive can be written, and so can an object that has a name or a text in place. -/
def CanWrite (heap : Heap) (t : Tracker) : Item → Prop
  | .ref h => t.isTracked h ∨ heap.isInlinable h
  | x => x.isUnknown = false

theorem CanWrite.failsWith_literal {heap : Heap} {t : Tracker} (hx : CanWrite heap t x) :
    FailsWith P x.literal := by
  intro e he
  cases x with
  | bool b => cases b <;> cases he
  | absent | hole => cases hx
  | _ => cases he

/-- One of these functions refers to a slot that the fault names. -/
def Heap.UnloweredIn (heap : Heap) (S : Handle → Prop) (e : Fault) : Prop :=
  ∃ h f a, S h ∧ heap.get? h = some (.function f) ∧ a ∈ Stmt.slotsAll f.body ∧ e = .notLowered a

/-- A function that can be reached refers to a slot that the fault names. -/
def Heap.Unlowered (heap : Heap) (start : List Handle) : Fault → Prop :=
  heap.UnloweredIn (heap.Reach start)

theorem Tracker.nests_of_mem_inlined {heap : Heap} {t : Tracker} (hk : k ∈ inlined heap t h) :
    Nests heap t h k := by
  obtain ⟨href, hn⟩ := mem_unnamed.mp hk
  exact ⟨mem_refsOf.mpr (Heap.mem_items_of_use href), hn⟩

namespace Output

variable {out : Output} {S : Handle → Prop}

/-- These objects, among them all that have a binding, can be written with what is inside them, and
none of them inside itself. -/
structure Complete (out : Output) (S : Handle → Prop) : Prop where
  items : ∀ {h}, S h → ∀ x ∈ out.heap.uses h, CanWrite out.heap out.tracker x
  tracked : ∀ {h}, out.tracker.isTracked h → h < out.heap.size → S h
  inside : ∀ {h k}, S h → k ∈ Tracker.inlined out.heap out.tracker h → S k
  ends : ∀ {h}, S h → ¬Relation.TransGen (Tracker.Nests out.heap out.tracker) h h

/-- The number of objects that are written with an object. -/
noncomputable abbrev height (out : Output) (h : Handle) : Nat :=
  Tracker.height out.heap out.tracker h

theorem Complete.nested (hc : out.Complete S) (hr : S h)
    (hk : k ∈ Tracker.inlined out.heap out.tracker h) :
    S k ∧ out.heap.isInlinable k ∧ out.height k < out.height h := by
  obtain ⟨huse, hn⟩ := Tracker.mem_unnamed.mp hk
  have hwrite := hc.items hr (.ref k) huse
  exact ⟨hc.inside hr hk, hwrite.resolve_left (by simp [hn]),
    Tracker.height_lt (Tracker.nests_of_mem_inlined hk) (hc.ends hr)⟩

theorem unloweredIn_of_slots (hr : S h) :
    ∀ a ∈ out.heap.slots h, out.heap.UnloweredIn S (.notLowered a) := by
  intro a ha
  obtain ⟨f, hf, ha⟩ := Heap.exists_function_of_slot ha
  exact ⟨h, f, a, hr, hf, ha, rfl⟩

/-- The first object is written in place, and the second one inside it. -/
def Inlines (out : Output) (h k : Handle) : Prop :=
  out.heap.isInlinable h ∧ k ∈ Tracker.inlined out.heap out.tracker h

section Step

variable {expand : Handle → Except Fault String}
  {define : String → Handle → Except Fault (List Piece)} {path : String}

theorem failsWith_spell (hx : FailsWith P x.literal)
    (hk : ∀ k, x = .ref k → out.tracker.isTracked k = false → FailsWith P (expand k)) :
    FailsWith P (out.spell expand x) := by
  cases x with
  | ref k =>
    simp only [spell]
    cases hid : out.tracker.id? k with
    | some id => exact .pure _
    | none => exact hk k rfl (by simp [Tracker.isTracked, hid])
  | _ => exact hx.bind fun _ => .pure _

theorem failsWith_child {c : Child} (hx : FailsWith P c.2.literal)
    (hk : ∀ k path, c.2 = .ref k → out.tracker.isTracked k = false →
      FailsWith P (define path k)) : FailsWith P (out.child define path c) := by
  obtain ⟨place, x⟩ := c
  cases x with
  | ref k =>
    simp only [child]
    split
    · exact .pure _
    · rename_i hn
      exact hk k _ rfl (by simpa using hn)
  | _ => exact hx.bind fun _ => .pure _

variable (hx : ∀ x ∈ out.heap.uses h, FailsWith P x.literal)
  (hs : ∀ a ∈ out.heap.slots h, P (.notLowered a))
include hx hs

/-- What can go wrong with an object in place, if nothing else can with the objects inside it. -/
theorem failsWith_expandWith
    (hk : ∀ k, out.Inlines h k → FailsWith P (expand k))
    (hn : out.heap.isInlinable h = false → ∀ kind, P (.notInline kind h)) :
    FailsWith P (out.expandWith expand h) := by
  cases ho : out.heap.get? h with
  | none =>
    simp only [expandWith, ho]
    exact .throw (hn (by simp [Heap.isInlinable, ho]) _)
  | some o =>
    cases hi : o.isInlinable with
    | false =>
      have hthrow := hn (by simp [Heap.isInlinable, ho, hi])
      cases o with
      | seq | function => cases hi
      | type | anchor | feature | record =>
        simp only [expandWith, ho]
        exact .throw (hthrow _)
    | true =>
      refine (gathers_expandWith ho hi).failsWith (e := expand) fun l hl => ?_
      cases l with
      | item x =>
        have huse := (Heap.mem_uses ho).mpr hl
        exact failsWith_spell (hx x huse) fun k he hn =>
          hk k ⟨by simp [Heap.isInlinable, ho, hi], Tracker.mem_unnamed.mpr ⟨he ▸ huse, hn⟩⟩
      | free name => exact .pure name
      | slot a => exact .throw (hs a (Heap.slots_of_get? ho ▸ Object.slot_mem_leaves.mp hl))

theorem failsWith_defineWith {item : Item → Except Fault String}
    (hk : ∀ path, ∀ k ∈ Tracker.inlined out.heap out.tracker h, FailsWith P (define path k))
    (hi : ∀ x ∈ out.heap.uses h, FailsWith P (item x))
    (hn : out.heap.get? h = none → P (.notInline "object" h)) :
    FailsWith P (out.defineWith define path item h) := by
  cases ho : out.heap.get? h with
  | none =>
    simp only [defineWith, ho]
    exact .throw (hn ho)
  | some o =>
    cases o with
    | function f =>
      have htext := f.failsWith_render (w := plainWriter item) (fun name => .pure name)
        (fun x hl => hi x ((Heap.mem_uses ho).mpr hl))
        fun a ha => .throw (hs a (Heap.slots_of_get? ho ▸ ha))
      simp only [defineWith, ho]
      exact htext.bind fun _ => .pure _
    | seq | type | anchor | feature | record =>
      refine (gathers_defineWith ho (by simp)).failsWith (e := ⟨define, item⟩) fun c hc => ?_
      have huse : c.2 ∈ out.heap.uses h := by
        rw [uses_of_not_function ho (by simp)]
        exact List.mem_map_of_mem hc
      exact failsWith_child (hx _ huse) fun k path he hn =>
        hk path k (Tracker.mem_unnamed.mpr ⟨he ▸ huse, hn⟩)

end Step

theorem Complete.failsWith_expandWithin (hc : out.Complete S) (depth : Nat) (hr : S h)
    (hi : out.heap.isInlinable h) (hd : out.height h < depth) :
    FailsWith (out.heap.UnloweredIn S) (out.expandWithin depth h) := by
  induction depth generalizing h with
  | zero => exact absurd hd (Nat.not_lt_zero _)
  | succ depth ih =>
    refine failsWith_expandWith (fun x hx => (hc.items hr x hx).failsWith_literal)
      (unloweredIn_of_slots hr) (fun k hk => ?_) (by simp [hi])
    obtain ⟨hreach, hinline, hlt⟩ := hc.nested hr hk.2
    exact ih hreach hinline (by omega)

/-- The depth is enough for every nesting. -/
theorem Complete.failsWith_inline (hc : out.Complete S) (hx : CanWrite out.heap out.tracker x)
    (hr : ∀ k, x = .ref k → out.tracker.isTracked k = false → S k) :
    FailsWith (out.heap.UnloweredIn S) (out.inline x) := by
  refine failsWith_spell hx.failsWith_literal fun k he hn => ?_
  subst he
  have hi : out.heap.isInlinable k := hx.resolve_left (by simp [hn])
  exact hc.failsWith_expandWithin _ (hr k rfl hn) hi (Nat.lt_succ_of_le Tracker.height_le)

theorem Complete.failsWith_defineWithin (hc : out.Complete S) (depth : Nat) (path : String)
    (hr : S h) (hlt : h < out.heap.size) (hd : out.height h < depth) :
    FailsWith (out.heap.UnloweredIn S) (out.defineWithin depth path h) := by
  induction depth generalizing path h with
  | zero => exact absurd hd (Nat.not_lt_zero _)
  | succ depth ih =>
    rw [defineWithin_succ_eq]
    refine failsWith_defineWith (fun x hx => (hc.items hr x hx).failsWith_literal)
      (unloweredIn_of_slots hr) (fun path k hk => ?_) (fun x hx => ?_)
      fun hn => absurd hlt (Nat.not_lt.mpr (Heap.get?_eq_none_iff.mp hn))
    · obtain ⟨hreach, hinline, hheight⟩ := hc.nested hr hk
      exact ih path hreach (Heap.lt_of_isInlinable hinline) (by omega)
    · exact hc.failsWith_inline (hc.items hr x hx) fun k he hn =>
        hc.inside hr (Tracker.mem_unnamed.mpr ⟨he ▸ hx, hn⟩)

theorem failsWith_bindAll {bound : HandleSet} {hs : List Handle}
    (h : ∀ k ∈ hs, FailsWith P (out.define k)) : FailsWith P (out.bindAll out.define bound hs) := by
  induction hs generalizing bound with
  | nil => exact .pure _
  | cons k hs ih =>
    rw [List.forall_mem_cons] at h
    exact h.1.bind fun _ => (ih h.2).bind fun _ => .pure _

theorem Complete.failsWith_companion (hc : out.Complete S) :
    FailsWith (out.heap.UnloweredIn S) out.companion := by
  refine failsWith_bindAll fun k hk => ?_
  have htracked := Tracker.isTracked_iff.mpr (mem_tracker_order hk)
  have hlt := lt_of_mem_order hk
  exact hc.failsWith_defineWithin _ _ (hc.tracked htracked hlt) hlt
    (Nat.lt_succ_of_le Tracker.height_le)

end Output

/-- Emission fails only at a function that still refers to a slot. -/
theorem failsWith_emit {program : Program} {heap : Heap} {t : Tracker} {names : Naming}
    {S : Handle → Prop} (hc : ∀ name, Output.Complete ⟨heap, t, name⟩ S)
    (hi : ∀ x ∈ Stmt.itemsAll program,
      CanWrite heap t x ∧ ∀ k, x = .ref k → t.isTracked k = false → S k)
    (hs : Stmt.slotsAll program = []) :
    FailsWith (heap.UnloweredIn S) (emit program heap t names) := by
  have hbody : FailsWith (heap.UnloweredIn S)
      (renderProgram (primaryOutput heap t names).writer program) := by
    refine failsWith_renderProgram (fun name => .pure name) program (fun x hx => ?_) (by simp [hs])
    exact (hc names.imported).failsWith_inline (hi x hx).1 (hi x hx).2
  have hcompanion : FailsWith (heap.UnloweredIn S) (companionText heap t names) :=
    (hc names.binding).failsWith_companion.bind fun _ => .pure _
  exact hbody.bind fun _ => hcompanion.bind fun _ => .pure _

end Comptime
