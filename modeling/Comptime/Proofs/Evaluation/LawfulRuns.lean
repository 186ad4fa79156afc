import Comptime.Proofs.Edges
import Comptime.Proofs.Evaluation.Attempts
import Comptime.Proofs.Evaluation.Laws

/-! Sweeps and specializations keep every law about items. -/
namespace Comptime

/-- All parts of the expressions that are tried in the frame are as they should be. -/
def Frame.Admitted (A : Expr → Prop) (f : Frame) : Prop :=
  ∀ a e, f.expr? a = some e → ∀ p ∈ e.parts true, A p

variable {l : Law} {m k : Nat} {A : Expr → Prop}

namespace Frame

variable {f f' : Frame} {a : SlotAddr} {x : Item}

theorem obeys_empty : ({} : Frame).Obeys l m where
  item hg := nomatch hg
  var hv := nomatch hv

theorem admitted_empty : ({} : Frame).Admitted A := fun _ _ he => nomatch he

theorem admitted_of_slots
    (hf : ∀ {g s}, g ∈ f.groups → s ∈ g.slots → ∀ p ∈ s.expr.parts true, A p) : f.Admitted A := by
  intro a e he
  obtain ⟨s, hs, rfl⟩ := Option.map_eq_some_iff.mp he
  obtain ⟨g, hg, hi⟩ := Option.bind_eq_some_iff.mp hs
  exact hf (List.mem_of_find?_eq_some hg) (Array.mem_of_getElem? hi)

theorem obeys_iff : f.Obeys l m ↔ f.All (fun _ => True) (l.holds m) :=
  ⟨fun hf => ⟨fun _ _ => trivial, hf.item, hf.var⟩, fun hf => ⟨hf.item, hf.var⟩⟩

theorem Obeys.freeze (hf : f.Obeys l m) (hx : l.holds m x) : (f.freeze a x).Obeys l m :=
  obeys_iff.mpr ((obeys_iff.mp hf).freeze hx)

theorem Admitted.addGroup (hf : f.Admitted A) {g : Group} (hg : ∀ p ∈ GroupOf.parts true g, A p) :
    (f.addGroup g).Admitted A := by
  intro a e he
  rw [expr?, slot?_addGroup] at he
  split at he
  · rw [Option.map_map] at he
    obtain ⟨e', he', rfl⟩ := Option.map_eq_some_iff.mp he
    obtain ⟨id, label, slots⟩ := g
    exact fun p hp => hg p (Expr.mem_partsAll.mpr ⟨e', List.mem_of_getElem? he', hp⟩)
  · exact hf a e he

theorem Admitted.addGroups {gs : List Group} (hf : f.Admitted A)
    (hg : ∀ p ∈ GroupOf.partsAll true gs, A p) : (gs.foldl Frame.addGroup f).Admitted A := by
  induction gs generalizing f with
  | nil => exact hf
  | cons g gs ih =>
    rw [GroupOf.partsAll, List.forall_mem_append] at hg
    exact ih (hf.addGroup hg.1) hg.2

/-- Only the groups of a frame count. -/
theorem Admitted.congr (hf : f.Admitted A) (hg : f'.groups = f.groups) : f'.Admitted A := by
  intro a e he
  refine hf a e ?_
  simpa only [expr?, slot?, group?, hg] using he

theorem Admitted.enter (hf : f.Admitted A) {site : Generic} {args : List Item}
    (hs : ∀ p ∈ GenericOf.parts true site, A p) (h : f.enter site args = .ok f') :
    f'.Admitted A := by
  obtain ⟨id, name, params, groups, body⟩ := site
  rw [GenericOf.parts, List.forall_mem_append] at hs
  exact (hf.addGroups hs.1).congr (groups_bindParams h)

theorem Obeys.enterAll {bs : List (Generic × List Item)} (hf : f.Obeys l m)
    (hb : ∀ b ∈ bs, ∀ x ∈ b.2, l.holds m x)
    (h : bs.foldlM (fun f b => f.enter b.1 b.2) f = .ok f') : f'.Obeys l m :=
  obeys_iff.mpr ((obeys_iff.mp hf).enterAll
    (fun b hmem => ⟨fun _ _ _ _ => trivial, hb b hmem⟩) h)

theorem Admitted.enterAll {bs : List (Generic × List Item)} (hf : f.Admitted A)
    (hb : ∀ b ∈ bs, ∀ p ∈ GenericOf.parts true b.1, A p)
    (h : bs.foldlM (fun f b => f.enter b.1 b.2) f = .ok f') : f'.Admitted A := by
  induction bs generalizing f with
  | nil =>
    cases h
    exact hf
  | cons b bs ih =>
    rw [List.foldlM_cons] at h
    obtain ⟨f₁, h₁, h⟩ := bind_eq_ok.mp h
    rw [List.forall_mem_cons] at hb
    exact ih (hf.enter hb.1 h₁) hb.2 h

end Frame

/-- The generic and its arguments obey the law. -/
def Law.Binds (l : Law) (m : Nat) (b : Generic × List Item) : Prop :=
  Admits l.Allows (GenericOf.parts true b.1) ∧ ∀ x ∈ b.2, l.holds m x

namespace TypeValue

variable {t : TypeValue} {target : Generic} {input : Option (List Item)}
  {bs : List (Generic × List Item)}

/-- An application brings a generic that the type names, and arguments that it holds or that are
given last. -/
theorem mem_of_chunk {a : Application} (ha : a ∈ t.applications) {b : Generic × List Item}
    (h : t.chunk input a = .ok b) :
    b.1 ∈ t.generics ∧ ∀ x ∈ b.2, x ∈ (Object.type t).held ∨ ∃ xs, input = some xs ∧ x ∈ xs := by
  unfold chunk at h
  split at h
  · rename_i xs hxs
    cases h
    refine ⟨List.mem_append_right _ (List.mem_map_of_mem ha), fun x hx => ?_⟩
    rcases Option.or_eq_some_iff.mp hxs with hxs | ⟨-, hxs⟩
    · left
      simp only [Object.held, Object.children, List.map_append, List.mem_append, mem_arguments]
      exact Or.inr ⟨a, ha, by rwa [hxs]⟩
    · exact Or.inr ⟨xs, hxs, hx⟩
  · cases h

theorem binds_chunk (ht : (Object.type t).Obeys l m)
    (hi : ∀ xs, input = some xs → ∀ x ∈ xs, l.holds m x) {a : Application}
    (ha : a ∈ t.applications) {b : Generic × List Item} (h : t.chunk input a = .ok b) :
    l.Binds m b := by
  obtain ⟨hg, hxs⟩ := mem_of_chunk ha h
  refine ⟨ht.generics _ hg, fun x hx => ?_⟩
  rcases hxs x hx with hx | ⟨xs, hinput, hx⟩
  · exact ht.held x hx
  · exact hi xs hinput x hx

section Arguments

variable {P : Generic × List Item → Prop}
  (hnoted : ∀ a ∈ t.applications, ∀ b, t.chunk input a = .ok b → P b)
  (hinput : ∀ xs, input = some xs → P (target, xs))
include hnoted hinput

theorem forall_chunks (h : t.chunks target input = .ok bs) : ∀ b ∈ bs, P b := by
  have hmap : ∀ (as : List Application) {cs}, (∀ a ∈ as, a ∈ t.applications) →
      as.mapM (t.chunk input) = .ok cs → ∀ c ∈ cs, P c := by
    intro as
    induction as with
    | nil =>
      rintro cs - hcs
      cases hcs
      exact fun c hc => nomatch hc
    | cons a as ih =>
      intro cs has hcs
      obtain ⟨c, ds, hc, hds, rfl⟩ := mapM_cons_eq_ok.mp hcs
      refine List.forall_mem_cons.mpr ⟨hnoted a (has a List.mem_cons_self) c hc, ?_⟩
      exact ih (fun b hb => has b (List.mem_cons_of_mem a hb)) hds
  unfold chunks at h
  split at h
  · cases h
  · obtain ⟨noted, hn, h⟩ := bind_eq_ok.mp h
    have hns := hmap _ (fun a ha => List.mem_reverse.mp ha) hn
    cases pure_eq_ok.mp h
    split
    · intro b hb
      rcases List.mem_append.mp hb with hb | hb
      · obtain ⟨xs, hxs, rfl⟩ := List.mem_map.mp hb
        exact hinput xs (Option.mem_toList.mp hxs)
      · exact hns b hb
    · exact hns

omit hnoted hinput in
theorem forall_gather {known : List (Generic × List Item)} {site : Generic} {args : List Item}
    (happend : ∀ {s later}, P (s, later) → P (s, args ++ later)) (hk : ∀ b ∈ known, P b)
    (hs : P (site, args)) : ∀ b ∈ gather known site args, P b := by
  induction known with
  | nil =>
    intro b hb
    cases List.mem_singleton.mp hb
    exact hs
  | cons c known ih =>
    obtain ⟨s, later⟩ := c
    rw [List.forall_mem_cons] at hk
    rw [gather]
    split
    · exact List.forall_mem_cons.mpr ⟨happend hk.1, hk.2⟩
    · exact List.forall_mem_cons.mpr ⟨hk.1, ih hk.2⟩

/-- What holds of each application, and of the arguments given last, holds of all that is bound. -/
theorem forall_arguments? (hnil : P (target, []))
    (happend : ∀ {site args s later}, P (site, args) → P (s, later) → P (s, args ++ later))
    (h : t.arguments? target input = .ok bs) : ∀ b ∈ bs, P b := by
  have hfold : ∀ (cs known : List (Generic × List Item)), (∀ b ∈ cs, P b) → (∀ b ∈ known, P b) →
      ∀ b ∈ cs.foldl (fun known c => gather known c.1 c.2) known, P b := by
    intro cs
    induction cs with
    | nil => exact fun known _ hk => hk
    | cons c cs ih =>
      intro known hc hk
      rw [List.forall_mem_cons] at hc
      exact ih _ hc.2 (forall_gather (fun hs => happend hc.1 hs) hk hc.1)
  obtain ⟨cs, hcs, h⟩ := bind_eq_ok.mp h
  have hbound := hfold cs [] (forall_chunks hnoted hinput hcs) fun b hb => nomatch hb
  cases pure_eq_ok.mp h
  split
  · exact hbound
  · refine List.forall_mem_append.mpr ⟨hbound, fun b hb => ?_⟩
    cases List.mem_singleton.mp hb
    exact hnil

end Arguments

theorem binds_arguments? (ht : (Object.type t).Obeys l m)
    (hp : Admits l.Allows (GenericOf.parts true target))
    (hi : ∀ xs, input = some xs → ∀ x ∈ xs, l.holds m x)
    (h : t.arguments? target input = .ok bs) : ∀ b ∈ bs, l.Binds m b :=
  forall_arguments? (fun _ ha _ hb => binds_chunk ht hi ha hb) (fun xs hxs => ⟨hp, hi xs hxs⟩)
    ⟨hp, List.forall_mem_nil _⟩
    (fun hs hlater => ⟨hlater.1, List.forall_mem_append.mpr ⟨hs.2, hlater.2⟩⟩) h

end TypeValue

namespace World

structure Obeys (l : Law) (w : World) : Prop where
  heap : w.heap.Obeys l
  chain : Chain.Obeys l w.heap.size w.chain
  expr : w.context.frame.Admitted l.Allows

variable {q : Qualifier} {w₀ w : World} {a : SlotAddr} {e : Expr} {x : Item} {heap : Heap}

theorem Obeys.slot? (hw : w.Obeys l) {item : Option Item}
    (hs : w.context.frame.slot? a = some ⟨e, item⟩) : Admits l.Allows (e.parts true) :=
  hw.expr a e (by simp [Frame.expr?, hs])

theorem Obeys.grow (hw : w.Obeys l) (he : w.heap.Extends l heap) : Obeys l { w with heap } :=
  ⟨hw.heap.extends he, hw.chain.le he.grows.size, hw.expr⟩

theorem Obeys.freeze (hw : w.Obeys l) (he : w.heap.Extends l heap) (hx : l.holds heap.size x) :
    (w.freeze a x heap).Obeys l where
  heap := hw.heap.extends he
  chain := by
    have hc := hw.chain.le he.grows.size
    refine ⟨hc.base, fun hf => ?_⟩
    rcases List.mem_cons.mp hf with rfl | hf
    · exact (hc.frame List.mem_cons_self).freeze hx
    · exact hc.frame (List.mem_cons_of_mem _ hf)
  expr b e he := hw.expr b e (Frame.expr?_freeze.symm.trans he)

/-- Runs of attempts keep a law, and only add to the heap. -/
theorem Attempts.obeys (hq : Qualifier.Keeps l q) (h₀ : w₀.Obeys l) (ht : Attempts q w₀ w) :
    w.Obeys l ∧ w₀.heap.Extends l w.heap := by
  induction ht with
  | start => exact ⟨h₀, .refl l _⟩
  | @next w a e ht hs ih =>
    obtain ⟨hw, hext⟩ := ih
    obtain ⟨he, hx⟩ := Expr.keeps_evalWith hq hw.chain (hw.slot? hs) w.heap hw.heap
      (Nat.le_refl _)
    obtain ⟨x, heap, hev, h⟩ | ⟨heap, hev, h⟩ := trySlot_cases (q := q) hs <;> rw [h]
    · rw [hev] at he hx
      exact ⟨hw.freeze he (hx x rfl), hext.trans he⟩
    · rw [hev] at he
      exact ⟨hw.grow he, hext.trans he⟩

end World

section

variable {q : Qualifier} {chain : Chain}

/-- Resolving a frame inside a chain gives a chain that obeys the law too. -/
theorem keeps_resolveInside (hq : Qualifier.Keeps l q) (hc : Chain.Obeys l m chain) {f : Frame}
    (hf : f.Obeys l m) (hx : f.Admitted l.Allows) :
    Eval.Keeps l m (fun k c => Chain.Obeys l k c) (resolveInside q chain f) := by
  intro heap hh hm
  have hw : (World.mk ⟨f, chain⟩ heap).Obeys l := by
    refine ⟨hh, ⟨Nat.le_trans hc.base hm, fun hmem => ?_⟩, hx⟩
    rcases List.mem_cons.mp hmem with rfl | hmem
    · exact hf.le hm
    · exact (hc.frame hmem).le hm
  have ht := World.Attempts.start.sweepFrom (q := q) (n := 0) (w := ⟨⟨f, chain⟩, heap⟩)
  obtain ⟨hobeys, hext⟩ := ht.obeys hq hw
  unfold resolveInside World.stallWith
  match hr : World.sweepFrom q 0 ⟨⟨f, chain⟩, heap⟩ with
  | (.error e, w) =>
    rw [hr] at hext
    exact ⟨hext, fun c hc => nomatch hc⟩
  | (.ok fix, w) =>
    rw [hr] at hext hobeys
    dsimp only
    split
    · refine ⟨hext, fun c hc => ?_⟩
      cases hc
      exact hobeys.chain
    · exact ⟨hext, fun c hc => nomatch hc⟩

theorem Qualifier.keeps_qualifyWith (hq : Qualifier.Keeps l q) :
    Qualifier.Keeps l (qualifyWith q) := by
  intro m chain t args hc ht ha
  unfold qualifyWith
  cases hg : t.generic? with
  | none => exact Eval.keeps_fail
  | some target =>
    have hp := ht.generics target (TypeValue.mem_generics_of_generic? hg)
    have hbound : Eval.Keeps l m (fun k bs => ∀ b ∈ bs, l.Binds k b)
        (Run.lift (.ofExcept (t.arguments? target args))) :=
      keeps_ofExcept fun bs k hbs hk b hb => by
        have hbind := TypeValue.binds_arguments? ht hp ha hbs b hb
        exact ⟨hbind.1, fun x hx => l.mono hk (hbind.2 x hx)⟩
    refine hbound.bind fun k bs hk hbs => ?_
    have hframe : Eval.Keeps l k (fun k (f : Frame) => f.Obeys l k ∧ f.Admitted l.Allows)
        (Run.lift (.ofExcept (bs.foldlM (fun (f : Frame) b => f.enter b.1 b.2) {}))) :=
      keeps_ofExcept fun f j hf hj => by
        have hobeys := Frame.obeys_empty.enterAll (fun b hb => (hbs b hb).2) hf
        have hadmitted := Frame.admitted_empty.enterAll (fun b hb => (hbs b hb).1) hf
        exact ⟨hobeys.le hj, hadmitted⟩
    refine hframe.bind fun j f hj ⟨hf, hx⟩ => ?_
    refine (keeps_resolveInside hq (hc.le (Nat.le_trans hk hj)) hf hx).bind
      fun i inner hi hinner => ?_
    have hbody : Admits l.Allows (GroupOf.parts true target.body) := by
      obtain ⟨id, name, params, groups, body⟩ := target
      exact fun p hmem => hp p (List.mem_append_right _ hmem)
    refine (GroupOf.keeps_evalWith hq hinner hbody).bind fun n body hn hx => ?_
    refine Eval.keeps_state fun heap _ hm => ?_
    cases heap.type? body with
    | none => exact Eval.keeps_fail
    | some t => exact Eval.keeps_pure fun k hk => l.mono (Nat.le_trans hm hk) hx

/-- Specializing keeps every law, to any depth. -/
theorem Qualifier.keeps_qualifyWithin (depth : Nat) : Qualifier.Keeps l (qualifyWithin depth) := by
  induction depth with
  | zero => exact fun _ _ _ => Eval.keeps_fail
  | succ depth ih => exact Qualifier.keeps_qualifyWith ih

end

end Comptime
