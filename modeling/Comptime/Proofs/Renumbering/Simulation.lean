import Comptime.Proofs.Evaluation.Tries
import Comptime.Proofs.Renaming.Rendering
import Comptime.Proofs.Renumbering.Link

/-! Two evaluations side by side. Their frames hold the same slots, but not the same ones need be
frozen: `l` says that what the left one has frozen the right one has too, and `r` the converse. -/
namespace Comptime

variable {ρ : Renumbering} {n : Nat} {σ τ : Link} {α β γ δ : Type} {l r l' r' : Prop}

/-- The outcomes agree, unless one side has to wait for what only the other one has. -/
def Outcome.Sim (l r : Prop) (R : α → β → Prop) : Outcome α → Outcome β → Prop
  | .resolved a, .resolved b => R a b
  | .resolved _, .pending | .failed _, .pending => ¬l
  | .pending, .resolved _ | .pending, .failed _ => ¬r
  | .resolved _, .failed _ | .failed _, .resolved _ => False
  | .pending, .pending | .failed _, .failed _ => True

theorem Outcome.Sim.mono {R Q : α → β → Prop} {o : Outcome α} {o' : Outcome β}
    (h : o.Sim l r R o') (hl : l' → l) (hr : r' → r) (hR : ∀ a b, R a b → Q a b) :
    o.Sim l' r' Q o' := by
  cases o <;> cases o'
  case resolved.resolved a b => exact hR a b h
  case resolved.failed | failed.resolved => exact h
  case resolved.pending | failed.pending => exact fun hl' => h (hl hl')
  case pending.resolved | pending.failed => exact fun hr' => h (hr hr')
  case pending.pending | failed.failed => trivial

/-- Waiting on the left is excused on whatever happens on the right. -/
theorem Outcome.Sim.pending_left {R : α → β → Prop} (o' : Outcome β) (hr : ¬r) :
    Outcome.pending.Sim l r R o' := by
  cases o'
  · exact hr
  · trivial
  · exact hr

theorem Outcome.Sim.pending_right {R : α → β → Prop} (o : Outcome α) (hl : ¬l) :
    o.Sim l r R .pending := by
  cases o
  · exact hl
  · trivial
  · exact hl

theorem Outcome.Sim.bind {R : α → β → Prop} {Q : γ → δ → Prop} {o : Outcome α} {o' : Outcome β}
    {f : α → Outcome γ} {f' : β → Outcome δ} (h : o.Sim l r R o')
    (hf : ∀ a b, R a b → (f a).Sim l r Q (f' b)) : (o >>= f).Sim l r Q (o' >>= f') := by
  cases o <;> cases o'
  case resolved.resolved a b => exact hf a b h
  case resolved.pending => exact .pending_right _ h
  case pending.resolved => exact .pending_left _ h
  case resolved.failed | failed.resolved => exact h.elim
  case failed.pending | pending.failed => exact h
  case pending.pending | failed.failed => trivial

theorem Agrees.sim {R : α → β → Prop} {x : Except Fault α} {y : Except Fault β}
    (h : Agrees True R x y) : (Outcome.ofExcept x).Sim l r R (.ofExcept y) := by
  cases x <;> cases y
  · trivial
  · exact h trivial
  · exact h
  · exact h

namespace Link

variable (ρ l r) in
def PairFrozen (σ : Link) : Option Item → Option Item → Prop
  | some x, some y => σ.Pair ρ x y
  | some _, none => ¬l
  | none, some _ => ¬r
  | none, none => True

variable (ρ l r) in
def PairSlot (σ : Link) : Option Slot → Option Slot → Prop
  | some s, some s' => s'.expr = s.expr.renumber ρ ∧ σ.PairFrozen ρ l r s.item s'.item
  | none, none => True
  | _, _ => False

variable (ρ) in
def PairBinding (σ : Link) : Binding → Binding → Prop
  | .item x, .item y => σ.Pair ρ x y
  | .slot a, .slot b => b = ρ.slot a
  | _, _ => False

variable (ρ l r) in
structure Frames (σ : Link) (f f' : Frame) : Prop where
  group : ∀ id, (f'.group? (ρ.group id)).isSome = (f.group? id).isSome
  slot : ∀ a, σ.PairSlot ρ l r (f.slot? a) (f'.slot? (ρ.slot a))
  range : ∀ {b s}, f'.slot? b = some s → ∃ a, b = ρ.slot a
  vars : List.Forall₂ (fun b b' => b'.1 = b.1 ∧ σ.PairBinding ρ b.2 b'.2) f.vars f'.vars

variable (ρ n l r) in
/-- The chains hold the same slots and variables. Handles below `n` are those handed in, and they
are the same on both sides. -/
structure Chains (σ : Link) (chain chain' : Chain) : Prop where
  frames : List.Forall₂ (σ.Frames ρ l r) chain chain'
  based : ∀ {h}, h < n → σ.dom h ∧ σ.map h = h
  sound : Chain.Sound n σ.left chain
  sound' : Chain.Sound n σ.right chain'

section Mono

variable {f f' : Frame} {chain chain' : Chain}

theorem PairFrozen.mono {x y : Option Item} (h : σ.PairFrozen ρ l r x y) (hs : σ.Sub τ)
    (hl : l' → l) (hr : r' → r) : τ.PairFrozen ρ l' r' x y := by
  cases x <;> cases y
  · trivial
  · exact fun hr' => h (hr hr')
  · exact fun hl' => h (hl hl')
  · exact Pair.mono h hs

theorem PairSlot.mono {s s' : Option Slot} (h : σ.PairSlot ρ l r s s') (hs : σ.Sub τ)
    (hl : l' → l) (hr : r' → r) : τ.PairSlot ρ l' r' s s' := by
  cases s <;> cases s'
  · trivial
  · exact h
  · exact h
  · exact ⟨h.1, h.2.mono hs hl hr⟩

theorem PairBinding.mono {b b' : Binding} (h : σ.PairBinding ρ b b') (hs : σ.Sub τ) :
    τ.PairBinding ρ b b' := by
  cases b <;> cases b'
  · exact Pair.mono h hs
  · exact h
  · exact h
  · exact h

theorem Frames.mono (h : σ.Frames ρ l r f f') (hs : σ.Sub τ) (hl : l' → l) (hr : r' → r) :
    τ.Frames ρ l' r' f f' where
  group := h.group
  slot a := (h.slot a).mono hs hl hr
  range := h.range
  vars := h.vars.imp fun _ _ hb => ⟨hb.1, hb.2.mono hs⟩

theorem Chains.mono (h : σ.Chains ρ n l r chain chain') (hs : σ.Le τ) (hl : l' → l) (hr : r' → r) :
    τ.Chains ρ n l' r' chain chain' where
  frames := h.frames.imp fun _ _ hf => hf.mono hs.toSub hl hr
  based hh := by
    obtain ⟨hd, hm⟩ := h.based hh
    exact ⟨hs.dom hd, (hs.map hd).trans hm⟩
  sound := h.sound.le hs.left
  sound' := h.sound'.le hs.right

theorem Chains.le (h : σ.Chains ρ n l r chain chain') (hs : σ.Le τ) :
    τ.Chains ρ n l r chain chain' :=
  h.mono hs id id

end Mono

section Read

variable {f : Frame} {chain chain' : Chain}

theorem sim_readSlot (h : List.Forall₂ (σ.Frames ρ l r) chain chain') (a : SlotAddr) :
    (Chain.readSlot chain a).Sim l r (σ.Pair ρ) (Chain.readSlot chain' (ρ.slot a)) := by
  induction h with
  | nil => trivial
  | @cons f f' chain chain' hf hc ih =>
    have hgroup := hf.group a.group
    have hslot := hf.slot a
    rw [Chain.readSlot_cons, Chain.readSlot_cons]
    change Outcome.Sim l r _ _ (if (f'.group? (ρ.group a.group)).isSome then _ else _)
    rw [hgroup]
    split
    · cases hs : f.slot? a with
      | none =>
        cases hs' : f'.slot? (ρ.slot a) with
        | none => trivial
        | some s' =>
          rw [hs, hs'] at hslot
          exact hslot.elim
      | some s =>
        cases hs' : f'.slot? (ρ.slot a) with
        | none =>
          rw [hs, hs'] at hslot
          exact hslot.elim
        | some s' =>
          rw [hs, hs'] at hslot
          obtain ⟨e, x⟩ := s
          obtain ⟨e', y⟩ := s'
          have hxy := hslot.2
          cases x <;> cases y <;> exact hxy
    · exact ih

/-- The values of a variable, if it has any. -/
def PairValue? (ρ : Renumbering) (σ : Link) : Option Item → Option Item → Prop
  | some x, some y => σ.Pair ρ x y
  | none, none => True
  | _, _ => False

theorem sim_lookup {vars vars' : List (VarId × Binding)} (v : VarId)
    (h : List.Forall₂ (fun b b' => b'.1 = b.1 ∧ σ.PairBinding ρ b.2 b'.2) vars vars') :
    match vars.lookup v, vars'.lookup v with
    | some b, some b' => σ.PairBinding ρ b b'
    | none, none => True
    | _, _ => False := by
  induction h with
  | nil => trivial
  | @cons b b' vars vars' hb hvars ih =>
    obtain ⟨w, b⟩ := b
    obtain ⟨w', b'⟩ := b'
    obtain rfl : w' = w := hb.1
    simp only [List.lookup_cons]
    cases v == w'
    · exact ih
    · exact hb.2

theorem sim_readVar (h : List.Forall₂ (σ.Frames ρ l r) chain chain') (v : VarId) :
    (Chain.readVar chain v).Sim l r (σ.PairValue? ρ) (Chain.readVar chain' v) := by
  induction h with
  | nil => trivial
  | @cons f f' chain chain' hf hc ih =>
    have hv := sim_lookup v hf.vars
    rw [Chain.readVar, Chain.readVar]
    cases hb : f.vars.lookup v with
    | none =>
      cases hb' : f'.vars.lookup v with
      | none => exact ih
      | some b' =>
        rw [hb, hb'] at hv
        exact hv.elim
    | some b =>
      cases hb' : f'.vars.lookup v with
      | none =>
        rw [hb, hb'] at hv
        exact hv.elim
      | some b' =>
        rw [hb, hb'] at hv
        cases b with
        | item x =>
          cases b' with
          | item y => exact hv
          | slot b' => exact hv.elim
        | slot a =>
          cases b' with
          | item y => exact hv.elim
          | slot b' =>
            obtain rfl : b' = ρ.slot a := hv
            have hs := sim_readSlot (.cons hf hc) a
            dsimp only
            revert hs
            cases Chain.readSlot (f :: chain) a <;>
              cases Chain.readSlot (f' :: chain') (ρ.slot a) <;> exact id

theorem sim_read (h : List.Forall₂ (σ.Frames ρ l r) chain chain') (p : Placeholder)
    (handle : Handle → Handle) :
    (Chain.read chain p).Sim l r (σ.Pair ρ) (Chain.read chain' (p.rename (ρ.renaming handle))) := by
  cases p with
  | slot a => exact sim_readSlot h a
  | var v =>
    refine (sim_readVar h v).bind fun x y hxy => ?_
    cases x <;> cases y
    · exact ⟨fun _ he => (nomatch he), rfl⟩
    · exact hxy.elim
    · exact hxy.elim
    · exact hxy

end Read

end Link

namespace Eval

variable (ρ n l r) in
/-- The computations may run on any heaps that a later link joins. If both give a result, it is
related by `R` at a link that is later still. -/
def Sim (R : Link → α → β → Prop) (σ : Link) (c : Eval α) (c' : Eval β) : Prop :=
  ∀ ⦃τ heap heap'⦄, σ.Le τ → τ.Heaps ρ n heap heap' →
    (c heap).1.Sim l r
      (fun a b => ∃ υ, τ.Le υ ∧ υ.Heaps ρ n (c heap).2 (c' heap').2 ∧ R υ a b) (c' heap').1

variable {R : Link → α → β → Prop} {Q : Link → γ → δ → Prop} {c : Eval α} {c' : Eval β}
  {f : α → Eval γ} {f' : β → Eval δ}

theorem sim_pure {a : α} {b : β} (h : ∀ {τ}, σ.Le τ → R τ a b) :
    Sim ρ n l r R σ (pure a) (pure b) :=
  fun τ _ _ ht hh => ⟨τ, .refl τ, hh, h ht⟩

theorem sim_lift {o : Outcome α} {o' : Outcome β}
    (h : o.Sim l r (fun a b => ∀ {τ}, σ.Le τ → R τ a b) o') :
    Sim ρ n l r R σ (Run.lift o) (Run.lift o') :=
  fun τ _ _ ht hh => h.mono id id fun _ _ hab => ⟨τ, .refl τ, hh, hab ht⟩

theorem sim_ofExcept {x : Except Fault α} {y : Except Fault β} {S : α → β → Prop}
    (h : Agrees True S x y) (hR : ∀ {τ a b}, σ.Le τ → S a b → R τ a b) :
    Sim ρ n l r R σ (Run.lift (.ofExcept x)) (Run.lift (.ofExcept y)) :=
  sim_lift (h.sim.mono id id fun _ _ hab _ ht => hR ht hab)

theorem sim_fail {e e' : Fault} : Sim ρ n l r R σ (Run.fail e) (Run.fail e') :=
  fun _ _ _ _ _ => trivial

theorem Sim.bind (h : Sim ρ n l r R σ c c')
    (hf : ∀ {τ a b}, σ.Le τ → R τ a b → Sim ρ n l r Q τ (f a) (f' b)) :
    Sim ρ n l r Q σ (c >>= f) (c' >>= f') := by
  intro τ heap heap' ht hh
  have h1 := h ht hh
  rw [Run.bind_apply, Run.bind_apply]
  match hc : c heap, hc' : c' heap' with
  | (.resolved a, heap₁), (.resolved b, heap₁') =>
    rw [hc, hc'] at h1
    obtain ⟨υ, hυ, hh₁, hab⟩ := h1
    have h2 := hf (ht.trans hυ) hab (.refl υ) hh₁
    exact h2.mono id id fun _ _ ⟨φ, hφ, hh₂, hQ⟩ => ⟨φ, hυ.trans hφ, hh₂, hQ⟩
  | (.resolved a, heap₁), (.pending, heap₁') =>
    rw [hc, hc'] at h1
    exact .pending_right _ h1
  | (.pending, heap₁), (.resolved b, heap₁') =>
    rw [hc, hc'] at h1
    exact .pending_left _ h1
  | (.resolved a, heap₁), (.failed e', heap₁') =>
    rw [hc, hc'] at h1
    exact h1.elim
  | (.failed e, heap₁), (.resolved b, heap₁') =>
    rw [hc, hc'] at h1
    exact h1.elim
  | (.failed e, heap₁), (.pending, heap₁') =>
    rw [hc, hc'] at h1
    exact h1
  | (.pending, heap₁), (.failed e', heap₁') =>
    rw [hc, hc'] at h1
    exact h1
  | (.pending, heap₁), (.pending, heap₁') => trivial
  | (.failed e, heap₁), (.failed e', heap₁') => trivial

theorem Sim.map {g : α → γ} {g' : β → δ} (h : Sim ρ n l r R σ c c')
    (hg : ∀ {τ a b}, R τ a b → Q τ (g a) (g' b)) : Sim ρ n l r Q σ (g <$> c) (g' <$> c') := by
  rw [map_eq_pure_bind, map_eq_pure_bind]
  intro τ heap heap' ht hh
  have h1 := h ht hh
  rw [Run.bind_apply, Run.bind_apply]
  match hc : c heap, hc' : c' heap' with
  | (.resolved a, heap₁), (.resolved b, heap₁') =>
    rw [hc, hc'] at h1
    obtain ⟨υ, hυ, hh₁, hab⟩ := h1
    exact ⟨υ, hυ, hh₁, hg hab⟩
  | (.resolved a, heap₁), (.pending, heap₁') | (.pending, heap₁), (.resolved b, heap₁')
  | (.resolved a, heap₁), (.failed e', heap₁') | (.failed e, heap₁), (.resolved b, heap₁')
  | (.failed e, heap₁), (.pending, heap₁') | (.pending, heap₁), (.failed e', heap₁')
  | (.pending, heap₁), (.pending, heap₁') | (.failed e, heap₁), (.failed e', heap₁') =>
    rw [hc, hc'] at h1
    exact h1

theorem sim_alloc {o p : Object} (ho : σ.PairObject ρ o p) (hp : o.Plain n) :
    Sim ρ n l r (fun τ => τ.Pair ρ) σ (Eval.alloc o) (Eval.alloc p) :=
  fun _ _ _ ht hh => ⟨_, hh.le_push, hh.alloc (ho.mono ht.toSub) hp, hh.pair_alloc⟩

/-- Heaps that the link joins are at hand wherever they are needed. -/
theorem sim_of_heaps (h : ∀ {τ heap heap'}, σ.Le τ → τ.Heaps ρ n heap heap' →
    Sim ρ n l r R τ c c') : Sim ρ n l r R σ c c' :=
  fun τ _ _ ht hh => h ht hh (.refl τ) hh

/-- What is read off the heaps is related as the heaps are. -/
theorem sim_state {a : Heap → Eval γ} {a' : Heap → Eval δ}
    (h : ∀ {τ heap heap'}, σ.Le τ → τ.Heaps ρ n heap heap' →
      Sim ρ n l r Q τ (a heap) (a' heap')) :
    Sim ρ n l r Q σ (Run.state >>= a) (Run.state >>= a') :=
  fun τ _ _ ht hh => h ht hh (.refl τ) hh

end Eval

end Comptime
