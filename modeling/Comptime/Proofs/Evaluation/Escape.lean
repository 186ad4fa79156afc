import Comptime.Proofs.Evaluation.LawfulRuns
import Mathlib

/-! Placeholders in the result of a specialization. The slots of the generic itself live in a frame
that is gone by then, so a placeholder for one of them stands for nothing any more. Only lazy reads
make such placeholders. -/
namespace Comptime

namespace Chain

/-- Some frame has the group that the address names, -/
def KnowsGroup (chain : Chain) (a : SlotAddr) : Prop := (Chain.group? chain a.group).isSome

/-- and that group has the slot. -/
def Knows (chain : Chain) (a : SlotAddr) : Prop :=
  ∃ g, Chain.group? chain a.group = some g ∧ a.slot < g.slots.size

instance (chain : Chain) (a : SlotAddr) : Decidable (chain.KnowsGroup a) :=
  inferInstanceAs (Decidable (_ = true))

end Chain

/-- Placeholders and lazy reads are confined to some slots. -/
def Law.confined (slots : SlotAddr → Prop) : Law where
  base := 0
  holds _ x := ∀ a, x = .hole (.slot a) → slots a
  lazy := slots
  mono _ hx := hx
  ref _ _ he := nomatch he
  other _ hx a he := absurd he (hx (.slot a))
  hole ha a he := by
    cases he
    exact ha

namespace TypeValue

/-- All that a specialization starts from is confined to some slots: the heap, what can be read in
the chain, the type and the arguments, down to the literals and the lazy reads in the generics they
name. -/
structure Confined (slots : SlotAddr → Prop) (chain : Chain) (t : TypeValue)
    (input : Option (List Item)) (heap : Heap) : Prop where
  stored : heap.Obeys (.confined slots)
  readable : Chain.Obeys (.confined slots) heap.size chain
  type : (Object.type t).Obeys (.confined slots) heap.size
  arguments : ∀ xs, input = some xs → ∀ x ∈ xs, ∀ a, x = .hole (.slot a) → slots a

variable {slots : SlotAddr → Prop} {chain : Chain} {t : TypeValue} {input : Option (List Item)}
  {heap heap' : Heap} {x : Item}

/-- A specialization leaves the heap confined. -/
theorem Confined.qualify (hc : t.Confined slots chain input heap)
    (h : t.qualify chain input heap = (.resolved x, heap')) {k : Handle} {a : SlotAddr}
    (ha : .hole (.slot a) ∈ heap'.items k) : slots a := by
  have hkeeps := Qualifier.keeps_qualifyWithin depthLimit hc.readable hc.type hc.arguments
  have hext := (hkeeps heap hc.stored (Nat.le_refl _)).1
  have hrun : qualifyWithin depthLimit chain t input heap = (.resolved x, heap') := h
  rw [hrun] at hext
  cases ho : heap'.get? k with
  | none => simp [Heap.items, Heap.children, ho] at ha
  | some o =>
    have hheld : .hole (.slot a) ∈ o.held := by
      rw [Heap.items, Heap.children, ho] at ha
      exact ha
    exact ((hc.stored.extends hext).object ho).held _ hheld a rfl

/-- If the caller knows every group that a placeholder names or a generic reads lazily, it knows the
groups that placeholders below the result name. So it is for slots. -/
theorem placeholders_known (h : t.qualify chain input heap = (.resolved x, heap')) :
    (t.Confined chain.KnowsGroup chain input heap →
      ∀ k a, heap'.Reach (refsOf [x]) k → .hole (.slot a) ∈ heap'.items k → chain.KnowsGroup a) ∧
    (t.Confined chain.Knows chain input heap →
      ∀ k a, heap'.Reach (refsOf [x]) k → .hole (.slot a) ∈ heap'.items k → chain.Knows a) :=
  ⟨fun hc _ _ _ ha => hc.qualify h ha, fun hc _ _ _ ha => hc.qualify h ha⟩

/-- The type of lists of what the first slot of the caller will hold. -/
def ofPending : TypeValue where
  kind := .generic ⟨0, "W", [], [], ⟨101, "body", [.type (.listOf (.lazySlot ⟨0, 0⟩))]⟩⟩

def pendingChain : Chain := [{ groups := [⟨0, "caller", #[⟨.slot ⟨0, 0⟩, none⟩]⟩] }]

theorem confined_ofPending : ofPending.Confined pendingChain.Knows pendingChain none {} where
  stored := ⟨Nat.zero_le _, fun ho => by cases ho⟩
  readable := by
    refine ⟨Nat.zero_le _, fun {f} hf => ?_⟩
    cases List.mem_singleton.mp hf
    refine ⟨fun {g s x} hg hs hx => ?_, fun hv => by cases hv⟩
    cases List.mem_singleton.mp hg
    simp only [List.mem_toArray, List.mem_singleton] at hs
    subst hs
    cases hx
  type := by
    refine ⟨fun x hx => (by cases hx), fun g hg p hp => ?_⟩
    cases List.mem_singleton.mp hg
    simp only [GenericOf.parts, GroupOf.partsAll, GroupOf.parts, Expr.partsAll, Expr.parts,
      TypeExpr.parts, List.nil_append, List.append_nil, List.mem_cons, List.not_mem_nil,
      or_false] at hp
    rcases hp with rfl | rfl
    · trivial
    · exact ⟨_, rfl, Nat.zero_lt_one⟩
  arguments _ h := by cases h

theorem placeholders_known_ofPending :
    ∃ heap', ofPending.qualify pendingChain none {} = (.resolved (.ref 0), heap') ∧
      .hole (.slot ⟨0, 0⟩) ∈ heap'.items 0 ∧ pendingChain.Knows ⟨0, 0⟩ := by
  have h : ofPending.qualify pendingChain none {} =
      (.resolved (.ref 0), ⟨#[.type { kind := .listOf (.hole (.slot ⟨0, 0⟩)) }]⟩) := by cbv
  have ha : Item.hole (.slot ⟨0, 0⟩) ∈
      (Heap.mk #[.type { kind := .listOf (.hole (.slot ⟨0, 0⟩)) }]).items 0 :=
    List.mem_singleton_self _
  refine ⟨_, h, ha, (placeholders_known h).2 confined_ofPending 0 ⟨0, 0⟩ ?_ ha⟩
  exact .start (List.mem_singleton_self 0)

/-- A generic whose first slot reads the second one before that is frozen. -/
def leaking : TypeValue where
  kind := .generic ⟨0, "W", [], [⟨100, "w", [.lazySlot ⟨100, 1⟩, .type .num]⟩],
    ⟨101, "body", [.type (.listOf (.slot ⟨100, 0⟩))]⟩⟩

/-- It has no placeholders, nor has its caller, but its result holds one for the second slot. That
slot was frozen, and only the frame that is gone knew it. -/
theorem placeholder_escapes_leaking :
    (∀ g ∈ leaking.generics, ∀ p ∈ GenericOf.parts true g, ∀ x, p ≠ .lit x) ∧
      ∃ heap', leaking.qualify [{}] none {} = (.resolved (.ref 1), heap') ∧
        heap'.Reach (refsOf [.ref 1]) 1 ∧ .hole (.slot ⟨100, 1⟩) ∈ heap'.items 1 ∧
        ¬Chain.KnowsGroup [{}] ⟨100, 1⟩ := by
  refine ⟨?_, ⟨#[.type { kind := .num }, .type { kind := .listOf (.hole (.slot ⟨100, 1⟩)) }]⟩,
    by cbv, .start (List.mem_singleton_self 1), List.mem_singleton_self _, by decide⟩
  intro g hg p hp x hx
  subst hx
  cases List.mem_singleton.mp hg
  simp [GenericOf.parts, GroupOf.partsAll, GroupOf.parts, Expr.partsAll, Expr.parts,
    TypeExpr.parts] at hp

end TypeValue

end Comptime
