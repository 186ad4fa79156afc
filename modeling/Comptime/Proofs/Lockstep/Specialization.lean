import Comptime.Proofs.Evaluation.Abreast
import Comptime.Proofs.Evaluation.LawfulRuns
import Comptime.Proofs.Lockstep.Evaluation

/-! Sweeps go in lockstep, and so do specializations. -/
namespace Comptime

namespace Lockstep

variable {s : Lockstep} {C : Generic → Prop} {q q' : Qualifier} {chain chain' : Chain}
  {w w' : World} {α β : Type}

theorem alike_evalWith (hq : s.Qualifies C q q') (hc : s.Chains chain chain') {e : Expr}
    (he : Admits (s.Allows C) (e.parts false)) :
    s.Alike s.Pair (e.evalWith q chain) (e.evalWith q' chain') :=
  (alike_run hq hc he).bind fun hv => alike_store hv

theorem alike_evalGroup (hq : s.Qualifies C q q') (hc : s.Chains chain chain') {g : Group}
    (hg : Admits (s.Allows C) (GroupOf.parts false g)) :
    s.Alike s.Pair (g.evalWith q chain) (g.evalWith q' chain') := by
  obtain ⟨id, label, slots⟩ := g
  have hslots : Admits (s.Allows C) (Expr.partsAll false slots) := hg
  refine (alike_runAll hq hc hslots).bind fun {xs ys} hxs => alike_pure ?_
  obtain ⟨hshows, rfl⟩ := hxs
  rw [List.getLast?_map]
  cases hx : xs.getLast? with
  | none => exact pair_const (by simp) (by simp)
  | some x => exact ⟨hshows x (List.mem_of_getLast? hx), rfl⟩

variable (s C) in
/-- A frame in which all that is tried can go in lockstep with the renamed one. -/
structure Trials (f : Frame) : Prop where
  all : f.All (fun e => Admits (s.Allows C) (e.parts false)) s.Shows
  bound : ∀ {v a}, (v, Binding.slot a) ∈ f.vars → s.reads (.slot a)

theorem Trials.frames {f : Frame} (hf : s.Trials C f) : s.Frames f (f.rename s.ren) :=
  ⟨hf.all.mono (fun _ _ => trivial) fun _ h => h, hf.bound, rfl⟩

variable (s C chain chain') in
/-- The worlds hold the same inside these chains, up to names, and what they try can go in
lockstep. -/
structure Worlds (w w' : World) : Prop where
  trials : s.Trials C w.context.frame
  frame : w'.context.frame = w.context.frame.rename s.ren
  outer : w.context.outer = chain
  outer' : w'.context.outer = chain'
  heap : s.Heaps w.heap w'.heap

theorem Worlds.chains (hw : s.Worlds C chain chain' w w') (hc : s.Chains chain chain') :
    s.Chains w.chain w'.chain := by
  have hframes := hw.trials.frames
  rw [← hw.frame] at hframes
  rw [World.chain, World.chain, Context.chain, Context.chain, hw.outer, hw.outer']
  exact hframes.chains hc

variable (s C) in
/-- The jobs go abreast in any two such worlds. -/
def Moves (m m' : Job World α) : Prop :=
  ∀ ⦃chain chain'⦄, s.Chains chain chain' →
    World.Abreast s.cutOff s.PairFault (s.Worlds C chain chain') m m'

section Sweeps

theorem moves_trySlot (hq : s.Qualifies C q q') (a : SlotAddr) {e : Expr}
    (he : Admits (s.Allows C) (e.parts false)) :
    s.Moves C (World.trySlot q a e) (World.trySlot q' a e) := by
  intro chain chain' hc w w' hw
  have hcase := alike_evalWith hq (hw.chains hc) he hw.heap
  unfold World.trySlot
  rw [hw.frame, Frame.isOpen_rename]
  split
  · match hx : e.evalWith q w.chain w.heap, hx' : e.evalWith q' w'.chain w'.heap with
    | (o, heap), (o', heap') =>
      rw [hx, hx'] at hcase
      obtain ⟨hcut, hdeep⟩ | ⟨hheaps, hends⟩ := hcase
      · cases hdeep
        exact Or.inl ⟨hcut, _, rfl⟩
      have hworlds : s.Worlds C chain chain' { w with heap } { w' with heap := heap' } :=
        ⟨hw.trials, hw.frame, hw.outer, hw.outer', hheaps⟩
      refine Or.inr ?_
      cases hends with
      | resolved hxy =>
        have htrials := hw.trials.all.freeze (a := a) hxy.1
        refine Or.inl ⟨_, _, _, rfl, rfl, ⟨htrials, hw.trials.bound⟩, ?_, hw.outer, hw.outer',
          hheaps⟩
        rw [hxy.2]
        exact (Frame.freeze_rename a _).symm
      | pending => exact Or.inl ⟨_, _, _, rfl, rfl, hworlds⟩
      | failed hf => exact Or.inr ⟨_, _, _, _, rfl, rfl, hworlds, hf⟩
  · exact Or.inr (Or.inl ⟨_, _, _, rfl, rfl, hw⟩)

theorem moves_sweepWith (hq : s.Qualifies C q q') :
    s.Moves C (World.sweepWith q) (World.sweepWith q') := by
  intro chain chain' hc
  refine World.abreast_sweepWith fun {w w'} hw => ?_
  rw [hw.frame]
  refine List.forall₂_map_right_iff.mpr (List.forall₂_same.mpr fun g hg => ?_)
  refine ⟨rfl, by simp [GroupState.rename], fun {i sl sl'} hsl hsl' => ?_⟩
  have hexpr : sl'.expr = sl.expr := by
    simp only [GroupState.rename, Array.getElem?_map, hsl, Option.map_some] at hsl'
    cases hsl'
    rfl
  rw [hexpr]
  exact moves_trySlot hq _ (hw.trials.all.expr hg (Array.mem_of_getElem? hsl)) hc

theorem moves_sweepFrom (hq : s.Qualifies C q q') (n : Nat) :
    s.Moves C (World.sweepFrom q n) (World.sweepFrom q' n) :=
  fun _ _ hc => World.abreast_sweepFrom (moves_sweepWith hq hc) n

theorem moves_resolveWith (hq : s.Qualifies C q q') :
    s.Moves C (World.resolveWith q) (World.resolveWith q') := by
  intro chain chain' hc
  refine World.abreast_resolveWith (moves_sweepWith hq hc) fun {w w'} hw => ⟨by simp, ?_⟩
  rw [hw.frame, Frame.firstOpen?_rename]
  rfl

/-- The groups of a frame are resolved in lockstep. -/
theorem alike_resolveInside (hq : s.Qualifies C q q') (hc : s.Chains chain chain') {f : Frame}
    (hf : s.Trials C f) :
    s.Alike s.Chains (resolveInside q chain f) (resolveInside q' chain' (f.rename s.ren)) := by
  intro heap heap' hh
  have hstart : s.Worlds C chain chain' ⟨⟨f, chain⟩, heap⟩ ⟨⟨f.rename s.ren, chain'⟩, heap'⟩ :=
    ⟨hf, rfl, rfl, rfl, hh⟩
  unfold resolveInside
  obtain ⟨hcut, u, hu⟩ | ⟨fix, u, u', hu, hu', hw⟩ | ⟨e, e', u, u', hu, hu', hw, he⟩ :=
    moves_sweepFrom hq 0 hc hstart
  · rw [World.stallWith, hu]
    exact Or.inl ⟨hcut, rfl⟩
  · rw [World.stallWith, World.stallWith, hu, hu']
    dsimp only
    split
    · exact Or.inr ⟨hw.heap, .resolved (hw.chains hc)⟩
    · exact Or.inr ⟨hw.heap, .pending⟩
  · rw [World.stallWith, World.stallWith, hu, hu']
    exact Or.inr ⟨hw.heap, .failed he⟩

end Sweeps

section Arguments

variable {t u : TypeValue} {input input' : Option (List Item)}

variable (s) in
/-- A generic with its arguments renamed. -/
def bound (b : Generic × List Item) : Generic × List Item := (b.1, b.2.map (Item.rename s.ren))

theorem ofExcept_bind (x : Except Fault α) (f : α → Except Fault β) :
    Outcome.ofExcept (x >>= f) = (Outcome.ofExcept x >>= fun a => .ofExcept (f a)) := by
  cases x <;> rfl

theorem ofExcept_eq_resolved {x : Except Fault α} {a : α} :
    Outcome.ofExcept x = .resolved a ↔ x = .ok a := by
  cases x <;> simp [Outcome.ofExcept]

theorem ends_chunk (ht : s.PairType t u) (hi : s.PairArgs input input') (a : Application) :
    s.Ends (fun b b' => b' = s.bound b) (.ofExcept (t.chunk input a))
      (.ofExcept (u.chunk input' (a.rename s.ren))) := by
  obtain ⟨site, args⟩ := a
  obtain ⟨-, rfl⟩ := hi
  unfold TypeValue.chunk
  cases args with
  | some xs => exact .resolved rfl
  | none =>
    cases input with
    | some xs => exact .resolved rfl
    | none => exact ht.eq ▸ ends_failed (by simp)

theorem ends_chunks (ht : s.PairType t u) (hi : s.PairArgs input input') (target : Generic) :
    s.Ends (fun bs bs' => bs' = bs.map s.bound) (.ofExcept (t.chunks target input))
      (.ofExcept (u.chunks target input')) := by
  have hnoted : ∀ as : List Application, s.Ends (fun bs bs' => bs' = bs.map s.bound)
      (.ofExcept (as.mapM (t.chunk input)))
      (.ofExcept ((as.map (Application.rename s.ren)).mapM (u.chunk input'))) := by
    intro as
    induction as with
    | nil => exact .resolved rfl
    | cons a as ih =>
      rw [List.map_cons, List.mapM_cons, List.mapM_cons, ofExcept_bind, ofExcept_bind]
      refine (ends_chunk ht hi a).bind fun b b' hb => ?_
      rw [ofExcept_bind, ofExcept_bind]
      refine ih.bind fun bs bs' hbs => .resolved ?_
      rw [hb, hbs, List.map_cons]
  have hawaiting : u.awaiting = t.awaiting := by
    rw [ht.eq]
    simp only [TypeValue.awaiting, TypeValue.rename, List.countP_map]
    refine List.countP_congr fun a _ => ?_
    simp [Application.rename]
  unfold TypeValue.chunks
  rw [hawaiting]
  split
  · exact ht.eq ▸ ends_failed (by simp)
  · have happs : u.applications.reverse =
        t.applications.reverse.map (Application.rename s.ren) := by
      rw [ht.eq, TypeValue.rename, List.map_reverse]
    rw [happs, ofExcept_bind, ofExcept_bind]
    refine (hnoted _).bind fun bs bs' hbs => .resolved ?_
    split
    · rw [hi.2, hbs]
      cases input <;> rfl
    · exact hbs

theorem gather_bound (known : List (Generic × List Item)) (b : Generic × List Item) :
    TypeValue.gather (known.map s.bound) (s.bound b).1 (s.bound b).2 =
      (TypeValue.gather known b.1 b.2).map s.bound := by
  induction known with
  | nil => rfl
  | cons c known ih =>
    obtain ⟨site, later⟩ := c
    rw [List.map_cons, bound, TypeValue.gather, TypeValue.gather]
    change (if site.id = b.1.id then _ else _) = _
    split
    · simp [bound]
    · rw [ih]
      rfl

/-- Corresponding types and arguments give the same generics to be bound, with corresponding
arguments. -/
theorem ends_arguments? (ht : s.PairType t u) (hi : s.PairArgs input input') {target : Generic}
    (htarget : C target) (hC : ∀ g ∈ t.generics, C g) :
    s.Ends (fun bs bs' => bs' = bs.map s.bound ∧ ∀ b ∈ bs, C b.1 ∧ ∀ x ∈ b.2, s.Shows x)
      (.ofExcept (t.arguments? target input)) (.ofExcept (u.arguments? target input')) := by
  have hfold : ∀ cs known : List (Generic × List Item),
      (cs.map s.bound).foldl (fun known c => TypeValue.gather known c.1 c.2) (known.map s.bound) =
        (cs.foldl (fun known c => TypeValue.gather known c.1 c.2) known).map s.bound := by
    intro cs
    induction cs with
    | nil => exact fun _ => rfl
    | cons c cs ih =>
      intro known
      rw [List.map_cons, List.foldl_cons, List.foldl_cons, gather_bound, ih]
  have hsame : s.Ends (fun bs bs' => bs' = bs.map s.bound) (.ofExcept (t.arguments? target input))
      (.ofExcept (u.arguments? target input')) := by
    unfold TypeValue.arguments?
    rw [ofExcept_bind, ofExcept_bind]
    refine (ends_chunks ht hi target).bind fun cs cs' hcs => .resolved ?_
    have hknown := hfold cs []
    rw [List.map_nil] at hknown
    rw [hcs, hknown, List.any_map]
    change (if List.any _ (fun b : Generic × List Item => b.1.id == target.id) then _ else _) = _
    split
    · rfl
    · rw [List.map_append]
      rfl
  refine hsame.and fun bs hbs => ?_
  refine TypeValue.forall_arguments? (P := fun b => C b.1 ∧ ∀ x ∈ b.2, s.Shows x)
    (fun a ha b hb => ?_) (fun xs hxs => ⟨htarget, hi.1 xs hxs⟩) ⟨htarget, List.forall_mem_nil _⟩
    (fun hs hlater => ⟨hlater.1, List.forall_mem_append.mpr ⟨hs.2, hlater.2⟩⟩)
    (ofExcept_eq_resolved.mp hbs)
  obtain ⟨hb, hheld⟩ := TypeValue.mem_of_chunk ha hb
  refine ⟨hC _ hb, fun x hx => ?_⟩
  rcases hheld x hx with hx | ⟨xs, hxs, hx⟩
  · exact ht.shows x hx
  · exact hi.1 xs hxs x hx

/-- Binding generics in a frame. -/
theorem ends_enterAll (bs : List (Generic × List Item)) (f : Frame) :
    s.Ends (fun f f' => f' = f.rename s.ren)
      (.ofExcept (bs.foldlM (fun (f : Frame) b => f.enter b.1 b.2) f))
      (.ofExcept ((bs.map s.bound).foldlM (fun (f : Frame) b => f.enter b.1 b.2)
        (f.rename s.ren))) := by
  induction bs generalizing f with
  | nil => exact .resolved rfl
  | cons b bs ih =>
    rw [List.map_cons, List.foldlM_cons, List.foldlM_cons, ofExcept_bind, ofExcept_bind]
    have henter : s.Ends (fun f f' => f' = f.rename s.ren) (.ofExcept (f.enter b.1 b.2))
        (.ofExcept ((f.rename s.ren).enter (s.bound b).1 (s.bound b).2)) := by
      rw [bound, Frame.enter_rename]
      unfold Frame.enter Frame.bindParams
      split
      · exact .resolved rfl
      · exact ends_failed (by simp)
    refine henter.bind fun f f' hf => ?_
    rw [hf]
    exact ih f

end Arguments

/-- If the expressions of the generics of `D` need only generics of `C` specialized, then those of
`D` are specialized in lockstep as those of `C` are. -/
theorem Qualifies.qualifyWith {D : Generic → Prop} (hq : s.Qualifies C q q')
    (hD : ∀ g, D g → Admits (s.Allows C) (GenericOf.parts false g)) :
    s.Qualifies D (qualifyWith q) (qualifyWith q') := by
  intro chain chain' t u args args' hc ht hgenerics hargs
  unfold Comptime.qualifyWith
  rw [ht.generic?_eq]
  cases hg : t.generic? with
  | none => exact alike_fail (congrArg Fault.notGeneric ht.eq) (by simp)
  | some target =>
    have htarget : D target := hgenerics target (TypeValue.mem_generics_of_generic? hg)
    refine (alike_lift (ends_arguments? ht hargs htarget hgenerics)).bind fun {bs bs'} hbs => ?_
    obtain ⟨rfl, hbs⟩ := hbs
    have hframe : s.Ends (fun f f' => f' = f.rename s.ren ∧ s.Trials C f)
        (.ofExcept (bs.foldlM (fun (f : Frame) b => f.enter b.1 b.2) {}))
        (.ofExcept ((bs.map s.bound).foldlM (fun (f : Frame) b => f.enter b.1 b.2) {})) := by
      refine (ends_enterAll bs {}).and fun f hf => ?_
      have hf := ofExcept_eq_resolved.mp hf
      refine ⟨Frame.all_empty.enterAll (fun b hb => ⟨fun g hg e he => ?_, (hbs b hb).2⟩) hf,
        fun hb => absurd hb (Frame.not_slot_enterAll List.not_mem_nil hf)⟩
      intro p hp
      have hmem : p ∈ GenericOf.parts false b.1 :=
        GenericOf.mem_parts.mpr (Or.inl ⟨g, hg, GroupOf.mem_parts.mpr ⟨e, he, hp⟩⟩)
      exact hD b.1 (hbs b hb).1 p hmem
    refine (alike_lift hframe).bind fun {f f'} hf => ?_
    obtain ⟨rfl, hf⟩ := hf
    refine (alike_resolveInside hq hc hf).bind fun hinner => ?_
    refine (alike_evalGroup hq hinner fun p hp => ?_).bind fun {x y} hxy => ?_
    · exact hD target htarget p (GenericOf.mem_parts.mpr (Or.inr hp))
    refine alike_state fun {heap heap'} hh => ?_
    rw [hh.type?_eq hxy]
    cases heap.type? x with
    | none => exact alike_fail (congrArg (Fault.bodyNotType target.name) hxy.2) (by simp)
    | some v => exact alike_pure hxy

end Lockstep

end Comptime
