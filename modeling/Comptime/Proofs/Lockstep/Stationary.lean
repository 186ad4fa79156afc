import Comptime.Proofs.Evaluation.Appending
import Comptime.Proofs.Lockstep.Specialization

/-! Sweeps that bring nothing new. One of them leaves the context as it is, but may abandon objects
on the heap. The next one then runs in lockstep with it, a few handles later. -/
namespace Comptime

namespace Lockstep

/-- The first run starts with `n` objects, and the second with `m`, the first `n` of them the
same. -/
def later (n m : Nat) : Lockstep where
  handle h := if h < n then h else m + (h - n)
  dom _ := True
  reads _ := True
  generic g := Admits (Law.stored n).Allows (GenericOf.parts true g)
  cutOff := True
  deep := False

variable {n m : Nat}

theorem later_steady {x : Item} (hx : x.Within (· < n)) : (later n m).Steady x :=
  ⟨⟨fun _ _ => trivial, fun _ _ => trivial⟩, fun h hh => if_pos (hx h hh)⟩

/-- Expressions whose handles are below `n` go in lockstep. -/
theorem later_allows {e : Expr} (he : Admits (Law.stored n).Allows (e.parts true)) :
    (later n m).Allows (later n m).generic e := by
  have hself : (Law.stored n).Allows e := he e e.mem_parts_self
  cases e with
  | lit x => exact later_steady hself
  | function name params body fs => exact fun x hx => later_steady (hself x hx)
  | type t =>
    cases t with
    | generic site =>
      rw [Expr.parts, TypeExpr.parts, if_pos rfl, admits_cons] at he
      exact he.2
    | _ => trivial
  | qualify e es => exact Or.inl fun g hg => hg
  | _ => trivial

theorem later_admits {parts all : List Expr} (hall : Admits (Law.stored n).Allows all)
    (hsub : ∀ p ∈ parts, (p.parts true).Sublist all) :
    Admits ((later n m).Allows (later n m).generic) parts :=
  fun p hp => later_allows fun p' hp' => hall p' ((hsub p hp).subset hp')

theorem later_qualifies (depth : Nat) :
    (later n m).Qualifies (later n m).generic (qualifyWithin depth) (qualifyWithin depth) := by
  induction depth with
  | zero => exact fun _ _ _ _ _ _ _ _ _ _ => alike_tooDeep trivial
  | succ depth ih =>
    exact ih.qualifyWith fun g hg => later_admits hg fun _ => GenericOf.parts_sublist

/-- What a heap holds refers to nothing else, so it is the same in a heap that has grown. -/
theorem later_heaps {heap heap' : Heap} (hh : heap.Obeys (.stored heap.size))
    (hg : heap.Grows heap') : (later heap.size heap'.size).Heaps heap heap' := by
  have hsize : heap.size ≤ heap'.size := hg.size
  have hinj : ∀ h k : Nat, (if h < heap.size then h else heap'.size + (h - heap.size)) =
      (if k < heap.size then k else heap'.size + (k - heap.size)) → h = k := by
    intro h k he
    split at he <;> split at he <;> omega
  refine ⟨⟨fun {h k} _ _ => hinj h k, fun _ _ => trivial, fun {h} _ => ?_⟩,
    fun k => ⟨trivial, ?_⟩, fun _ _ => trivial, fun {h o} _ ho => (hh.object ho).generics⟩
  · change heap'.get? (if h < heap.size then h else heap'.size + (h - heap.size)) = _
    split
    case isTrue hlt =>
      rw [hg.get? hlt]
      cases ho : heap.get? h with
      | none => rfl
      | some o =>
        rw [Option.map_some, renameObject_steady fun x hx => ?_]
        exact later_steady ((hh.object ho).held x hx)
    case isFalse hge =>
      rw [Heap.get?_eq_none_iff.mpr (Nat.le_of_not_lt hge),
        Heap.get?_eq_none_iff.mpr (Nat.le_add_right _ _)]
      rfl
  · change (if heap.size + k < heap.size then _ else heap'.size + (heap.size + k - _)) = _
    rw [if_neg (by omega), Nat.add_sub_cancel_left]

theorem later_frames {f : Frame} (hf : f.Obeys (.stored n) n) : (later n m).Frames f f := by
  refine frames_steady ((Frame.obeys_iff.mp hf).mono (fun _ h => h) fun x hx => ?_) fun _ => trivial
  exact later_steady hx

theorem later_chains {chain : Chain} (hc : ∀ f ∈ chain, f.Obeys (.stored n) n) :
    (later n m).Chains chain chain := by
  induction chain with
  | nil => exact chains_nil
  | cons f chain ih =>
    rw [List.forall_mem_cons] at hc
    exact (later_frames hc.1).chains (ih hc.2)

/-- The same context goes in lockstep with itself on a heap that has grown. -/
theorem later_worlds {w u : World} (hw : w.Obeys (.stored w.heap.size))
    (hc : u.context = w.context) (hg : w.heap.Grows u.heap) :
    (later w.heap.size u.heap.size).Worlds (later w.heap.size u.heap.size).generic
      w.context.outer w.context.outer w u := by
  have hframe : (later w.heap.size u.heap.size).Frames w.context.frame w.context.frame :=
    later_frames (hw.chain.frame List.mem_cons_self)
  refine ⟨⟨⟨fun {g sl} hmem hsl => ?_, hframe.shows.item, hframe.shows.var⟩, hframe.bound⟩, ?_,
    rfl, by rw [hc], later_heaps hw.heap hg⟩
  -- Ids are distinct, so that every group is the one found under its id.
  · obtain ⟨i, hi⟩ := Array.getElem?_of_mem hsl
    have hexpr : w.context.frame.expr? ⟨g.id, i⟩ = some sl.expr := by
      simp [Frame.expr?, Frame.slot?, Frame.group?_of_mem hmem, hi]
    exact later_admits (hw.expr _ _ hexpr) fun _ => Expr.parts_sublist
  · rw [hc]
    exact hframe.eq

end Lockstep

namespace World

variable {w w' u : World} {p : Progress}

/-- The same context, on a heap that has grown. -/
structure Grown (w u : World) : Prop where
  context : u.context = w.context
  obeys : u.Obeys (.stored w.heap.size)
  grows : w.heap.Grows u.heap

theorem Grown.refl (hw : w.Obeys (.stored w.heap.size)) : w.Grown w := ⟨rfl, hw, .refl _⟩

/-- What an idle sweep reports is reported again once the heap has grown. -/
theorem Grown.sweep (hw : w.Obeys (.stored w.heap.size))
    (h : World.sweep w = (.ok p, w')) (hp : p.frozen = 0) (hu : w.Grown u) :
    ∃ v, World.sweep u = (.ok p, v) ∧ w.Grown v := by
  have hworlds := Lockstep.later_worlds hw hu.context hu.grows
  have hchains : (Lockstep.later w.heap.size u.heap.size).Chains w.context.outer w.context.outer :=
    Lockstep.later_chains fun f hf => hw.chain.frame (List.mem_cons_of_mem _ hf)
  obtain ⟨-, w₁, hw₁⟩ | ⟨p', w₁, v, hw₁, hv, -⟩ | ⟨e, e', w₁, v, hw₁, -⟩ :=
    Lockstep.moves_sweepWith (Lockstep.later_qualifies depthLimit) hchains hworlds
  · cases h.symm.trans hw₁
  · cases h.symm.trans hw₁
    have ht := Attempts.start.sweep (q := qualifyWithin depthLimit) (w := u)
    obtain ⟨hobeys, hext⟩ := ht.obeys (Qualifier.keeps_qualifyWithin depthLimit) hu.obeys
    rw [hv] at hobeys hext
    have hidle := (sweepGroups_ok .start shows_groups hv).idle hp
    exact ⟨v, hv, hidle.trans hu.context, hobeys, hu.grows.trans hext.grows⟩
  · cases h.symm.trans hw₁

/-- The world after `k` sweeps, however they end. -/
def swept (w : World) : Nat → World
  | 0 => w
  | k + 1 => (World.sweep (w.swept k)).2

/-- If all handles of a world are in range and a sweep of it freezes nothing, then it is a fixed
point: every further sweep, on a heap that holds all that was abandoned before, reports the same and
leaves the context as it was. -/
theorem sweep_stationary (hw : w.Obeys (.stored w.heap.size))
    (h : World.sweep w = (.ok p, w')) (hp : p.frozen = 0) (k : Nat) :
    (w'.swept k).context = w.context ∧ (World.sweep (w'.swept k)).1 = .ok p := by
  have hgrown : w.Grown (w'.swept k) := by
    induction k with
    | zero =>
      obtain ⟨v, hv, hgrown⟩ := (Grown.refl hw).sweep hw h hp
      cases h.symm.trans hv
      exact hgrown
    | succ k ih =>
      obtain ⟨v, hv, hgrown⟩ := ih.sweep hw h hp
      rwa [swept, hv]
  obtain ⟨v, hv, -⟩ := hgrown.sweep hw h hp
  exact ⟨hgrown.context, congrArg Prod.fst hv⟩

/-- Two slots that wait for each other. The first abandons a list and the second a specialized
type. -/
def brooding : World where
  context :=
    { frame := { groups := [
        ⟨0, "g", #[⟨.seq [.seq [.lit (.ref 0)], .slot ⟨0, 1⟩], none⟩,
          ⟨.seq [.qualify (.lit (.ref 1)) none, .slot ⟨0, 0⟩], none⟩]⟩,
        ⟨1, "h", #[⟨.lit .null, some (.ref 1)⟩]⟩] } }
  heap := hoarding.heap

theorem brooding_obeys : brooding.Obeys (.stored brooding.heap.size) where
  heap := hoarding_obeys.heap
  chain := by
    refine ⟨Nat.le_refl _, fun {f} hf => ?_⟩
    cases List.mem_singleton.mp hf
    refine ⟨fun {g s x} hg hs hx => ?_, fun hv => by cases hv⟩
    simp only [brooding, List.mem_cons, List.not_mem_nil, or_false] at hg
    rcases hg with rfl | rfl <;>
      simp only [List.mem_toArray, List.mem_cons, List.not_mem_nil, or_false] at hs
    · rcases hs with rfl | rfl <;> cases hx
    · subst hs
      cases hx
      exact (Law.stored _).ref (by decide)
  expr := by
    refine Frame.admitted_of_slots fun {g s} hg hs => ?_
    simp only [brooding, List.mem_cons, List.not_mem_nil, or_false] at hg
    rcases hg with rfl | rfl <;>
      simp only [List.mem_toArray, List.mem_cons, List.not_mem_nil, or_false] at hs
    · rcases hs with rfl | rfl <;>
        simp [Expr.parts, Expr.partsAll, Expr.partsArgs, Law.Allows, Law.stored, Law.below,
          Item.Within, brooding, hoarding, Heap.size]
    · subst hs
      simp [Expr.parts, Law.Allows, Law.stored, Law.below, Item.Within]

theorem sweep_stationary_brooding :
    (World.sweep brooding).1 = .ok ⟨0, [0]⟩ ∧ (World.sweep brooding).2.heap.size = 4 ∧
      ((World.sweep brooding).2.swept 7).context = brooding.context ∧
      (World.sweep ((World.sweep brooding).2.swept 7)).1 = .ok ⟨0, [0]⟩ := by
  have hsweep : (World.sweep brooding).1 = .ok ⟨0, [0]⟩ := by cbv
  refine ⟨hsweep, by cbv, ?_⟩
  exact sweep_stationary brooding_obeys (Prod.ext hsweep rfl) rfl 7

end World

end Comptime
