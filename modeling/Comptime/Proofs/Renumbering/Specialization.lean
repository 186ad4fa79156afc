import Comptime.Proofs.Renumbering.Coherence

/-! Specializing paired types gives paired results, however deep it nests. -/
namespace Comptime

variable {ρ : Renumbering} {n : Nat} {l r : Prop} {q q' : Qualifier} {σ τ : Link}
  {t u : TypeValue} {input input' : Option (List Item)} {f f' : Frame}

theorem GenericOf.renumber_id (site : Generic) : (site.renumber ρ).id = site.id := by
  cases site
  rfl

theorem GenericOf.renumber_params (site : Generic) :
    (site.renumber ρ).params = site.params := by
  cases site
  rfl

theorem GenericOf.renumber_groups (site : Generic) :
    (site.renumber ρ).groups = site.groups.map (GroupOf.renumber ρ) := by
  obtain ⟨id, name, params, groups, body⟩ := site
  exact GroupOf.renumberAll_eq groups

theorem GenericOf.renumber_body (site : Generic) :
    (site.renumber ρ).body = site.body.renumber ρ := by
  cases site
  rfl

variable (ρ n) in
/-- A generic with its arguments, on both sides. -/
def Link.PairBound (σ : Link) (b b' : Generic × List Item) : Prop :=
  b.1.Plain n ∧ b'.1 = b.1.renumber ρ ∧ σ.Pairs ρ b.2 b'.2

section Arguments

variable (ht : σ.PairType ρ n t u) (hi : σ.PairArgs ρ input input')
include ht

theorem Link.PairType.awaiting : u.awaiting = t.awaiting := by
  obtain ⟨-, -, rfl⟩ := ht
  simp only [TypeValue.awaiting, TypeValue.rename, List.countP_map]
  refine List.countP_congr fun a _ => ?_
  simp [Application.rename]

theorem Link.PairType.within_args {a : Application} (ha : a ∈ t.applications) {xs : List Item}
    (hxs : a.args = some xs) : ∀ x ∈ xs, x.Within σ.dom := by
  intro x hx
  refine ht.2.1 x ?_
  obtain ⟨i, hlt, hi⟩ := List.mem_iff_getElem.mp ha
  simp only [Object.children, TypeValue.arguments, List.map_append, List.map_flatMap,
    List.mem_append, List.mem_flatMap]
  refine Or.inr ⟨(a, i), ?_, mem_indexed_items.mpr ?_⟩
  · rw [List.mem_zipIdx_iff_getElem?]
    simp [hlt, hi]
  · simpa [hxs] using hx

include hi

theorem TypeValue.agrees_chunk {a : Application} (ha : a ∈ t.applications) :
    Agrees True (σ.PairBound ρ n) (t.chunk input a)
      (u.chunk input' (a.rename (ρ.renaming σ.map))) := by
  have hplain := ht.1.2 a ha
  unfold TypeValue.chunk
  simp only [Application.rename]
  cases hargs : a.args with
  | some xs => exact ⟨hplain, rfl, ht.within_args ha hargs, rfl⟩
  | none =>
    obtain ⟨hwithin, rfl⟩ := hi
    cases input with
    | none => trivial
    | some xs => exact ⟨hplain, rfl, hwithin xs rfl, rfl⟩

theorem TypeValue.agrees_chunks {target : Generic} (hp : target.Plain n) :
    Agrees True (List.Forall₂ (σ.PairBound ρ n)) (t.chunks target input)
      (u.chunks (target.renumber ρ) input') := by
  have hnoted : Agrees True (List.Forall₂ (σ.PairBound ρ n))
      (t.applications.reverse.mapM (t.chunk input))
      (u.applications.reverse.mapM (u.chunk input')) := by
    have hmap : u.applications.reverse =
        t.applications.reverse.map (Application.rename (ρ.renaming σ.map)) := by
      rw [ht.2.2, TypeValue.rename, List.map_reverse]
    rw [hmap]
    exact Agrees.mapM fun a ha => TypeValue.agrees_chunk ht hi (List.mem_reverse.mp ha)
  unfold TypeValue.chunks
  rw [ht.awaiting]
  split
  · trivial
  · refine hnoted.bind fun bs bs' hbs => Agrees.pure ?_
    split
    · obtain ⟨hwithin, rfl⟩ := hi
      cases input with
      | none => exact hbs
      | some xs => exact .cons ⟨hp, rfl, hwithin xs rfl, rfl⟩ hbs
    · exact hbs

omit ht hi in
theorem TypeValue.forall₂_gather {known known' : List (Generic × List Item)}
    {b b' : Generic × List Item} (hk : List.Forall₂ (σ.PairBound ρ n) known known')
    (hb : σ.PairBound ρ n b b') :
    List.Forall₂ (σ.PairBound ρ n) (gather known b.1 b.2) (gather known' b'.1 b'.2) := by
  induction hk with
  | nil => exact .cons hb .nil
  | @cons c c' known known' hc hk ih =>
    obtain ⟨s, later⟩ := c
    obtain ⟨s', later'⟩ := c'
    obtain ⟨hplain, rfl, hlater⟩ := hc
    have hid : (s.renumber ρ).id = b'.1.id ↔ s.id = b.1.id := by
      rw [hb.2.1, GenericOf.renumber_id, GenericOf.renumber_id]
    rw [gather, gather]
    by_cases hs : s.id = b.1.id
    · rw [if_pos hs, if_pos (hid.mpr hs)]
      exact .cons ⟨hplain, rfl, hb.2.2.append hlater⟩ hk
    · rw [if_neg hs, if_neg (mt hid.mp hs)]
      exact .cons ⟨hplain, rfl, hlater⟩ ih

theorem TypeValue.agrees_arguments? {target : Generic} (hp : target.Plain n) :
    Agrees True (List.Forall₂ (σ.PairBound ρ n)) (t.arguments? target input)
      (u.arguments? (target.renumber ρ) input') := by
  have hfold : ∀ {cs cs' known known' : List (Generic × List Item)},
      List.Forall₂ (σ.PairBound ρ n) cs cs' → List.Forall₂ (σ.PairBound ρ n) known known' →
      List.Forall₂ (σ.PairBound ρ n) (cs.foldl (fun known c => gather known c.1 c.2) known)
        (cs'.foldl (fun known c => gather known c.1 c.2) known') := by
    intro cs cs' known known' hcs
    induction hcs generalizing known known' with
    | nil => exact id
    | cons hc _ ih => exact fun hk => ih (TypeValue.forall₂_gather hk hc)
  have hany : ∀ {bs bs' : List (Generic × List Item)}, List.Forall₂ (σ.PairBound ρ n) bs bs' →
      (bs'.any fun b => b.1.id == (target.renumber ρ).id) =
        bs.any fun b => b.1.id == target.id := by
    intro bs bs' hbs
    induction hbs with
    | nil => rfl
    | cons hb _ ih =>
      rw [List.any_cons, List.any_cons, ih, hb.2.1, GenericOf.renumber_id, GenericOf.renumber_id]
  refine (TypeValue.agrees_chunks ht hi hp).bind fun cs cs' hcs => Agrees.pure ?_
  have hbound := hfold hcs (.nil : List.Forall₂ (σ.PairBound ρ n) [] [])
  rw [hany hbound]
  split
  · exact hbound
  · exact List.rel_append hbound (.cons ⟨hp, rfl, Link.pairs_nil⟩ .nil)

end Arguments

section Entering

theorem GroupOf.renumber_group (g : Group) : (g.renumber ρ).id = ρ.group g.id := by
  cases g
  rfl

theorem GroupOf.renumber_slots (g : Group) :
    (g.renumber ρ).slots = g.slots.map (Expr.renumber ρ) := by
  obtain ⟨id, label, slots⟩ := g
  exact Expr.renumberAll_eq slots

theorem Link.Frames.addGroup (hf : σ.Frames ρ True True f f') (g : Group) :
    σ.Frames ρ True True (f.addGroup g) (f'.addGroup (g.renumber ρ)) where
  group id := by
    rw [Frame.group?_addGroup, Frame.group?_addGroup, GroupOf.renumber_group]
    by_cases hid : g.id = id
    · rw [if_pos hid, if_pos (congrArg ρ.group hid)]
      rfl
    · rw [if_neg hid, if_neg fun he => hid (ρ.inj he)]
      exact hf.group id
  slot a := by
    rw [Frame.slot?_addGroup, Frame.slot?_addGroup, GroupOf.renumber_group,
      GroupOf.renumber_slots]
    by_cases hid : g.id = a.group
    · have hid' : ρ.group g.id = (ρ.slot a).group := congrArg ρ.group hid
      rw [if_pos hid, if_pos hid', List.getElem?_map]
      change σ.PairSlot ρ True True ((g.slots[a.slot]?).map _) (((g.slots[a.slot]?).map _).map _)
      cases g.slots[a.slot]? with
      | none => trivial
      | some e => exact ⟨rfl, trivial⟩
    · have hid' : ρ.group g.id ≠ (ρ.slot a).group := fun he => hid (ρ.inj he)
      rw [if_neg hid, if_neg hid']
      exact hf.slot a
  range {b s} hs := by
    rw [Frame.slot?_addGroup, GroupOf.renumber_group] at hs
    split at hs
    · rename_i hid
      refine ⟨⟨g.id, b.slot⟩, ?_⟩
      obtain ⟨group, slot⟩ := b
      rw [Renumbering.slot, hid]
    · exact hf.range hs
  vars := hf.vars

theorem Link.Frames.declare (hf : σ.Frames ρ l r f f') (v : VarId) {b b' : Binding}
    (hb : σ.PairBinding ρ b b') : σ.Frames ρ l r (f.declare v b) (f'.declare v b') :=
  { hf with vars := .cons ⟨rfl, hb⟩ hf.vars }

theorem Link.Frames.agrees_bindParams (hf : σ.Frames ρ l r f f') (site : Generic)
    {args args' : List Item} (ha : σ.Pairs ρ args args') :
    Agrees True (σ.Frames ρ l r) (f.bindParams site args)
      (f'.bindParams (site.renumber ρ) args') := by
  obtain ⟨hwithin, rfl⟩ := ha
  have hfold : ∀ (vs : List VarId) (xs : List Item), (∀ x ∈ xs, x.Within σ.dom) →
      ∀ {f f' : Frame}, σ.Frames ρ l r f f' →
      σ.Frames ρ l r ((vs.zip xs).foldl (fun f p => f.declare p.1 (.item p.2)) f)
        ((vs.zip (xs.map (Item.rename (ρ.renaming σ.map)))).foldl
          (fun f p => f.declare p.1 (.item p.2)) f') := by
    intro vs
    induction vs with
    | nil => exact fun _ _ _ _ hf => hf
    | cons v vs ih =>
      intro xs hxs f f' hf
      cases xs with
      | nil => exact hf
      | cons x xs =>
        rw [List.forall_mem_cons] at hxs
        have hx : σ.PairBinding ρ (.item x) (.item (x.rename (ρ.renaming σ.map))) := ⟨hxs.1, rfl⟩
        exact ih xs hxs.2 (hf.declare v hx)
  unfold Frame.bindParams
  rw [GenericOf.renumber_params, List.length_map]
  split
  · have := hfold site.params args hwithin hf
    exact ⟨this.group, this.slot, this.range, this.vars⟩
  · trivial

theorem Link.Frames.agrees_enter (hf : σ.Frames ρ True True f f') {b b' : Generic × List Item}
    (hb : σ.PairBound ρ n b b') :
    Agrees True (σ.Frames ρ True True) (f.enter b.1 b.2) (f'.enter b'.1 b'.2) := by
  have hgroups : ∀ (gs : List Group) {f f' : Frame}, σ.Frames ρ True True f f' →
      σ.Frames ρ True True (gs.foldl Frame.addGroup f)
        ((gs.map (GroupOf.renumber ρ)).foldl Frame.addGroup f') := by
    intro gs
    induction gs with
    | nil => exact fun hf => hf
    | cons g gs ih => exact fun hf => ih (hf.addGroup g)
  unfold Frame.enter
  rw [hb.2.1, GenericOf.renumber_groups]
  exact (hgroups b.1.groups hf).agrees_bindParams b.1 hb.2.2

theorem Link.Frames.agrees_enterAll {bs bs' : List (Generic × List Item)}
    (hb : List.Forall₂ (σ.PairBound ρ n) bs bs') (hf : σ.Frames ρ True True f f') :
    Agrees True (σ.Frames ρ True True) (bs.foldlM (fun f b => f.enter b.1 b.2) f)
      (bs'.foldlM (fun f b => f.enter b.1 b.2) f') := by
  induction hb generalizing f f' with
  | nil => exact hf
  | cons hb _ ih =>
    rw [List.foldlM_cons, List.foldlM_cons]
    exact (hf.agrees_enter hb).bind fun _ _ hf => ih hf

/-- Entering generics freezes nothing. -/
theorem Frame.frozen_enterAll {bs : List (Generic × List Item)} {a : SlotAddr} {x : Item}
    (h : bs.foldlM (fun f b => f.enter b.1 b.2) f = .ok f') (hx : f'.Frozen a x) :
    f.Frozen a x := by
  have hgroups : ∀ (gs : List Group) {f : Frame}, (gs.foldl Frame.addGroup f).Frozen a x →
      f.Frozen a x := by
    intro gs
    induction gs with
    | nil => exact fun hx => hx
    | cons g gs ih => exact fun hx => Frame.frozen_addGroup (ih hx)
  induction bs generalizing f with
  | nil =>
    cases h
    exact hx
  | cons b bs ih =>
    rw [List.foldlM_cons] at h
    obtain ⟨f₁, h₁, h⟩ := bind_eq_ok.mp h
    have hx₁ := ih h
    refine hgroups b.1.groups ?_
    simpa only [Frame.Frozen, Frame.slot?, Frame.group?, Frame.groups_bindParams h₁] using hx₁

theorem Link.blank_empty : σ.Blank ρ n {} {} where
  frames := ⟨fun _ => rfl, fun _ => trivial, fun hs => (nomatch hs), .nil⟩
  sound := Frame.sound_empty
  sound' := Frame.sound_empty
  fresh := fun ⟨_, hs⟩ => nomatch hs
  fresh' := fun ⟨_, hs⟩ => nomatch hs

end Entering

/-- Related arguments are sound on both sides. -/
theorem Link.Heaps.boundSound {heap heap' : Heap} (hh : σ.Heaps ρ n heap heap')
    {b b' : Generic × List Item} (hb : σ.PairBound ρ n b b') :
    BoundSound n σ.left b ∧ BoundSound n σ.right b' := by
  obtain ⟨hp, hsite, hwithin, hargs⟩ := hb
  refine ⟨⟨hp, fun x hx => (hwithin x hx).mono fun h hd => hh.left ▸ hh.lt hd⟩, ?_, ?_⟩
  · rw [hsite]
    exact GenericOf.plain_renumber hp
  · rw [hargs]
    intro y hy
    obtain ⟨x, hx, rfl⟩ := List.mem_map.mp hy
    intro k hk
    cases x with
    | ref h =>
      cases hk
      exact hh.right ▸ hh.map_lt (hwithin _ hx h rfl)
    | _ => cases hk

theorem Link.Heaps.boundsSound {heap heap' : Heap} (hh : σ.Heaps ρ n heap heap')
    {bs bs' : List (Generic × List Item)} (hb : List.Forall₂ (σ.PairBound ρ n) bs bs') :
    (∀ b ∈ bs, BoundSound n σ.left b) ∧ ∀ b ∈ bs', BoundSound n σ.right b := by
  induction hb with
  | nil => exact ⟨fun _ hb => (nomatch hb), fun _ hb => nomatch hb⟩
  | cons hb _ ih =>
    obtain ⟨h, h'⟩ := hh.boundSound hb
    exact ⟨List.forall_mem_cons.mpr ⟨h, ih.1⟩, List.forall_mem_cons.mpr ⟨h', ih.2⟩⟩

theorem Link.agrees_enterAll {heap heap' : Heap} (hh : σ.Heaps ρ n heap heap')
    {bs bs' : List (Generic × List Item)} (hb : List.Forall₂ (σ.PairBound ρ n) bs bs') :
    Agrees True (σ.Blank ρ n) (bs.foldlM (fun (f : Frame) b => f.enter b.1 b.2) {})
      (bs'.foldlM (fun (f : Frame) b => f.enter b.1 b.2) {}) := by
  have hempty := Link.blank_empty (σ := σ) (ρ := ρ) (n := n)
  have hframes := Link.Frames.agrees_enterAll hb hempty.frames
  obtain ⟨hsound, hsound'⟩ := hh.boundsSound hb
  cases hf : bs.foldlM (fun (f : Frame) b => f.enter b.1 b.2) {} with
  | error e =>
    rw [hf] at hframes
    cases hf' : bs'.foldlM (fun (f : Frame) b => f.enter b.1 b.2) {} with
    | error e' => trivial
    | ok f' =>
      rw [hf'] at hframes
      exact hframes
  | ok f =>
    rw [hf] at hframes
    cases hf' : bs'.foldlM (fun (f : Frame) b => f.enter b.1 b.2) {} with
    | error e' =>
      rw [hf'] at hframes
      exact hframes
    | ok f' =>
      rw [hf'] at hframes
      exact ⟨hframes, hempty.sound.enterAll hsound hf, hempty.sound'.enterAll hsound' hf',
        fun hx => hempty.fresh (Frame.frozen_enterAll hf hx),
        fun hx => hempty.fresh' (Frame.frozen_enterAll hf' hx)⟩

section Qualifying

theorem Qualifier.sim_qualifyWith (hq : Qualifier.Sim ρ n q q') (hs : Qualifier.Keeps (.below n) q)
    (hs' : Qualifier.Keeps (.below n) q') : Qualifier.Sim ρ n (qualifyWith q) (qualifyWith q') := by
  intro l r σ₀ chain chain' t u args args' hc₀ ht₀ ha₀
  refine Eval.sim_of_heaps fun {σ heap heap'} hle hh => ?_
  have hc := hc₀.le hle
  have ht := ht₀.mono hle.toSub
  have ha := ha₀.mono hle.toSub
  have hgen : u.generic? = t.generic?.map (GenericOf.renumber ρ) := by
    rw [ht.2.2]
    exact TypeValue.generic?_rename _ t
  unfold qualifyWith
  rw [hgen]
  cases hg : t.generic? with
  | none => exact Eval.sim_fail
  | some target =>
    have hp : target.Plain n := ht.1.1 target (TypeValue.generic?_eq_some_iff.mp hg)
    have hbound : Eval.Sim ρ n l r (fun τ bs bs' => List.Forall₂ (σ.PairBound ρ n) bs bs' ∧ σ.Le τ)
        σ (Run.lift (.ofExcept (t.arguments? target args)))
        (Run.lift (.ofExcept (u.arguments? (target.renumber ρ) args'))) :=
      Eval.sim_ofExcept (TypeValue.agrees_arguments? ht ha hp) fun hs hb => ⟨hb, hs⟩
    refine hbound.bind fun {τ bs bs'} _ hb => ?_
    have hframe : Eval.Sim ρ n l r (fun τ => τ.Blank ρ n) τ
        (Run.lift (.ofExcept (bs.foldlM (fun (f : Frame) b => f.enter b.1 b.2) {})))
        (Run.lift (.ofExcept (bs'.foldlM (fun (f : Frame) b => f.enter b.1 b.2) {}))) :=
      Eval.sim_ofExcept (Link.agrees_enterAll hh hb.1) fun hs hf => hf.le (hb.2.trans hs)
    refine hframe.bind fun {υ f f'} hυ hf => ?_
    have hlast := hb.2.trans hυ
    refine (sim_resolveInside hq hs hs' (hc.le hlast) hf).bind fun {φ inner inner'} hφ hin => ?_
    rw [GenericOf.renumber_body]
    refine (GroupOf.sim_evalWith hq hin hp.body).bind fun {ψ x y} hψ hxy => ?_
    refine Eval.sim_state fun {χ heap heap'} hχ hh => ?_
    have hxy' := hxy.mono hχ.toSub
    cases hx : heap.type? x with
    | none =>
      rw [hh.type?_eq_none hxy' hx]
      exact Eval.sim_fail
    | some v =>
      obtain ⟨v', hv', -⟩ := hh.type? hxy' hx
      rw [hv']
      exact Eval.sim_pure fun hs => hxy'.mono hs.toSub

/-- Specializing to any depth gives paired results. -/
theorem Qualifier.sim_qualifyWithin (depth : Nat) :
    Qualifier.Sim ρ n (qualifyWithin depth) (qualifyWithin depth) := by
  induction depth with
  | zero => exact fun _ _ _ _ _ _ _ _ _ _ _ _ => Eval.sim_fail
  | succ depth ih =>
    exact Qualifier.sim_qualifyWith ih (Qualifier.keeps_qualifyWithin depth)
      (Qualifier.keeps_qualifyWithin depth)

end Qualifying

end Comptime
