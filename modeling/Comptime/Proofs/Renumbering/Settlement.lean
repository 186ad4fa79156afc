import Comptime.Proofs.Lowering
import Comptime.Proofs.Renaming.Replacement
import Comptime.Proofs.Renaming.Resolution
import Comptime.Proofs.Renumbering.Simulation

/-! Lowering and settlement in paired chains. -/
namespace Comptime

variable {ρ : Renumbering} {n : Nat} {σ : Link} {chain chain' : Chain} {heap heap' : Heap}
  {x y : Item} {α β γ δ : Type}

section Lowering

/-- Both traversals went without a fault and their results are related, or both met one. -/
def Lowered (R : α → β → Prop) : α × Option Fault → β × Option Fault → Prop
  | (a, none), (b, none) => R a b
  | (_, some _), (_, some _) => True
  | _, _ => False

theorem Lowered.map {R : α → β → Prop} {Q : γ → δ → Prop} {m : Lowering α} {m' : Lowering β}
    {f : α → γ} {g : β → δ} (h : Lowered R (m none) (m' none))
    (hf : ∀ a b, R a b → Q (f a) (g b)) :
    Lowered Q ((do return f (← m) : Lowering γ) none) ((do return g (← m') : Lowering δ) none) := by
  change Lowered Q (f (m none).1, (m none).2) (g (m' none).1, (m' none).2)
  match hm : m none, hm' : m' none with
  | (a, none), (b, none) =>
    rw [hm, hm'] at h
    exact hf a b h
  | (_, some _), (_, some _) => trivial
  | (_, none), (_, some _) | (_, some _), (_, none) =>
    rw [hm, hm'] at h
    exact h

variable {ε ζ : Type}

theorem Lowered.map₂ {R : α → β → Prop} {S : γ → δ → Prop} {Q : ε → ζ → Prop} {m : Lowering α}
    {m' : Lowering β} {k : Lowering γ} {k' : Lowering δ} {f : α → γ → ε} {g : β → δ → ζ}
    (h : Lowered R (m none) (m' none)) (hk : Lowered S (k none) (k' none))
    (hp : ∀ e, (k (some e)).2 = some e) (hp' : ∀ e, (k' (some e)).2 = some e)
    (hf : ∀ a b c d, R a b → S c d → Q (f a c) (g b d)) :
    Lowered Q ((do return f (← m) (← k) : Lowering ε) none)
      ((do return g (← m') (← k') : Lowering ζ) none) := by
  change Lowered Q (f (m none).1 (k (m none).2).1, (k (m none).2).2)
    (g (m' none).1 (k' (m' none).2).1, (k' (m' none).2).2)
  match hm : m none, hm' : m' none with
  | (a, none), (b, none) =>
    rw [hm, hm'] at h
    dsimp only
    match hc : k none, hc' : k' none with
    | (c, none), (d, none) =>
      rw [hc, hc'] at hk
      exact hf a b c d h hk
    | (_, some _), (_, some _) => trivial
    | (_, none), (_, some _) | (_, some _), (_, none) =>
      rw [hc, hc'] at hk
      exact hk
  | (_, some e), (_, some e') =>
    dsimp only
    rw [hp e, hp' e']
    trivial
  | (_, none), (_, some _) | (_, some _), (_, none) =>
    rw [hm, hm'] at h
    exact h.elim

variable (ρ) in
def Link.PairCode (σ : Link) (c d : Code) : Prop :=
  (∀ x ∈ c.items, x.Within σ.dom) ∧ d = c.rename (ρ.renaming σ.map)

variable (ρ) in
def Link.PairCodes (σ : Link) (cs ds : List Code) : Prop :=
  (∀ x ∈ Code.itemsAll cs, x.Within σ.dom) ∧ ds = Code.renameAll (ρ.renaming σ.map) cs

variable (ρ) in
def Link.PairStmt (σ : Link) (s t : Stmt) : Prop :=
  (∀ x ∈ s.items, x.Within σ.dom) ∧ t = s.rename (ρ.renaming σ.map)

variable (ρ) in
def Link.PairStmts (σ : Link) (ss ts : List Stmt) : Prop :=
  (∀ x ∈ Stmt.itemsAll ss, x.Within σ.dom) ∧ ts = Stmt.renameAll (ρ.renaming σ.map) ss

variable (ρ) in
/-- The chains hold the same slots and variables, and have frozen the same ones. -/
abbrev Link.Agree (σ : Link) (chain chain' : Chain) : Prop :=
  List.Forall₂ (σ.Frames ρ True True) chain chain'

theorem lowered_lowerSlot (hf : σ.Agree ρ chain chain') (a : SlotAddr) :
    Lowered (σ.PairCode ρ) (lowerSlot chain a none) (lowerSlot chain' (ρ.slot a) none) := by
  have hread := Link.sim_readSlot hf a
  unfold lowerSlot
  cases hx : Chain.readSlot chain a <;> cases hy : Chain.readSlot chain' (ρ.slot a) <;>
    rw [hx, hy] at hread
  case resolved.resolved x y =>
    refine ⟨fun z hz => ?_, congrArg Code.lit hread.2⟩
    cases List.mem_singleton.mp hz
    exact hread.1
  case resolved.pending => exact hread trivial
  case resolved.failed => exact hread
  case pending.resolved => exact hread trivial
  case failed.resolved => exact hread
  all_goals trivial

mutual

theorem Code.lowered_lower (hf : σ.Agree ρ chain chain') (c : Code)
    (hc : ∀ x ∈ c.items, x.Within σ.dom) :
    Lowered (σ.PairCode ρ) (c.lower chain none)
      ((c.rename (ρ.renaming σ.map)).lower chain' none) := by
  cases c with
  | lit x => exact ⟨hc, rfl⟩
  | comptime a => exact lowered_lowerSlot hf a
  | ident name => exact ⟨hc, rfl⟩
  | call c args =>
    simp only [Code.items, List.forall_mem_append] at hc
    refine (Code.lowered_lower hf c hc.1).map₂ (Code.lowered_lowerAll hf args hc.2)
      (fun e => by rw [Code.lowerAll_fault]) (fun e => by rw [Code.lowerAll_fault]) ?_
    rintro a _ b _ ⟨ha, rfl⟩ ⟨hb, rfl⟩
    exact ⟨List.forall_mem_append.mpr ⟨ha, hb⟩, rfl⟩
  | member o name =>
    refine (Code.lowered_lower hf o hc).map ?_
    rintro a _ ⟨ha, rfl⟩
    exact ⟨ha, rfl⟩
  | index o k =>
    simp only [Code.items, List.forall_mem_append] at hc
    refine (Code.lowered_lower hf o hc.1).map₂ (Code.lowered_lower hf k hc.2)
      (fun e => by rw [Code.lower_fault]) (fun e => by rw [Code.lower_fault]) ?_
    rintro a _ b _ ⟨ha, rfl⟩ ⟨hb, rfl⟩
    exact ⟨List.forall_mem_append.mpr ⟨ha, hb⟩, rfl⟩
  | array es =>
    refine (Code.lowered_lowerAll hf es hc).map ?_
    rintro a _ ⟨ha, rfl⟩
    exact ⟨ha, rfl⟩
  | binary op a b =>
    simp only [Code.items, List.forall_mem_append] at hc
    refine (Code.lowered_lower hf a hc.1).map₂ (Code.lowered_lower hf b hc.2)
      (fun e => by rw [Code.lower_fault]) (fun e => by rw [Code.lower_fault]) ?_
    rintro a _ b _ ⟨ha, rfl⟩ ⟨hb, rfl⟩
    exact ⟨List.forall_mem_append.mpr ⟨ha, hb⟩, rfl⟩
  | lambda params body =>
    refine (Stmt.lowered_lowerAll hf body hc).map ?_
    rintro a _ ⟨ha, rfl⟩
    exact ⟨ha, rfl⟩

theorem Code.lowered_lowerAll (hf : σ.Agree ρ chain chain') (cs : List Code)
    (hc : ∀ x ∈ Code.itemsAll cs, x.Within σ.dom) :
    Lowered (σ.PairCodes ρ) (Code.lowerAll chain cs none)
      (Code.lowerAll chain' (Code.renameAll (ρ.renaming σ.map) cs) none) := by
  cases cs with
  | nil => exact ⟨hc, rfl⟩
  | cons c cs =>
    simp only [Code.itemsAll, List.forall_mem_append] at hc
    refine (Code.lowered_lower hf c hc.1).map₂ (Code.lowered_lowerAll hf cs hc.2)
      (fun e => by rw [Code.lowerAll_fault]) (fun e => by rw [Code.lowerAll_fault]) ?_
    rintro a _ b _ ⟨ha, rfl⟩ ⟨hb, rfl⟩
    exact ⟨List.forall_mem_append.mpr ⟨ha, hb⟩, rfl⟩

theorem Stmt.lowered_lower (hf : σ.Agree ρ chain chain') (s : Stmt)
    (hs : ∀ x ∈ s.items, x.Within σ.dom) :
    Lowered (σ.PairStmt ρ) (s.lower chain none)
      ((s.rename (ρ.renaming σ.map)).lower chain' none) := by
  cases s with
  | letBind name c | exportConst name c | expr c | ret c =>
    refine (Code.lowered_lower hf c hs).map ?_
    rintro a _ ⟨ha, rfl⟩
    exact ⟨ha, rfl⟩
  | retVoid => exact ⟨hs, rfl⟩

theorem Stmt.lowered_lowerAll (hf : σ.Agree ρ chain chain') (ss : List Stmt)
    (hs : ∀ x ∈ Stmt.itemsAll ss, x.Within σ.dom) :
    Lowered (σ.PairStmts ρ) (Stmt.lowerAll chain ss none)
      (Stmt.lowerAll chain' (Stmt.renameAll (ρ.renaming σ.map) ss) none) := by
  cases ss with
  | nil => exact ⟨hs, rfl⟩
  | cons s ss =>
    simp only [Stmt.itemsAll, List.forall_mem_append] at hs
    refine (Stmt.lowered_lower hf s hs.1).map₂ (Stmt.lowered_lowerAll hf ss hs.2)
      (fun e => by rw [Stmt.lowerAll_fault]) (fun e => by rw [Stmt.lowerAll_fault]) ?_
    rintro a _ b _ ⟨ha, rfl⟩ ⟨hb, rfl⟩
    exact ⟨List.forall_mem_append.mpr ⟨ha, hb⟩, rfl⟩

end

end Lowering

section Settling

section Outcomes

variable {R : α → β → Prop} {o : Outcome β}

theorem Outcome.Sim.resolved {a : α} (h : (Outcome.resolved a).Sim True True R o) :
    ∃ b, o = .resolved b ∧ R a b := by
  cases o with
  | resolved b => exact ⟨b, rfl, h⟩
  | pending => exact absurd trivial h
  | failed e => exact h.elim

theorem Outcome.Sim.resolved' {o : Outcome α} {b : β} (h : o.Sim True True R (.resolved b)) :
    ∃ a, o = .resolved a ∧ R a b := by
  cases o with
  | resolved a => exact ⟨a, rfl, h⟩
  | pending => exact absurd trivial h
  | failed e => exact h.elim

theorem Outcome.Sim.pending (h : (Outcome.pending : Outcome α).Sim True True R o) :
    o = .pending := by
  cases o with
  | pending => rfl
  | resolved b | failed e => exact absurd trivial h

theorem Outcome.Sim.pending' {o : Outcome α} (h : o.Sim True True R (.pending : Outcome β)) :
    o = .pending := by
  cases o with
  | pending => rfl
  | resolved a | failed e => exact absurd trivial h

theorem Outcome.Sim.failed {e : Fault} (h : (Outcome.failed e : Outcome α).Sim True True R o) :
    ∃ e', o = .failed e' := by
  cases o with
  | resolved b => exact h.elim
  | pending => exact absurd trivial h
  | failed e' => exact ⟨e', rfl⟩

end Outcomes

theorem Item.rename_ne_hole {r : Renaming} (hx : ∀ p, x ≠ .hole p) (p : Placeholder) :
    x.rename r ≠ .hole p := by
  cases x with
  | hole q => exact absurd rfl (hx q)
  | _ => exact fun he => nomatch he

theorem Placeholder.rename_inj {p p' : Placeholder} {handle : Handle → Handle}
    (h : p.rename (ρ.renaming handle) = p'.rename (ρ.renaming handle)) : p = p' := by
  cases p with
  | slot a =>
    cases p' with
    | slot b => exact congrArg Placeholder.slot (ρ.slot_inj (Placeholder.slot.inj h))
    | var w => cases h
  | var v =>
    cases p' with
    | slot b => cases h
    | var w => exact h

/-- The second set has the renamed placeholders of the first. -/
def PlaceholdersMirror (r : Renaming) (seen seen' : PlaceholderSet) : Prop :=
  ∀ p : Placeholder, p.rename r ∈ seen' ↔ p ∈ seen

theorem PlaceholdersMirror.insert {handle : Handle → Handle} {seen seen' : PlaceholderSet}
    (h : PlaceholdersMirror (ρ.renaming handle) seen seen') (p : Placeholder) :
    PlaceholdersMirror (ρ.renaming handle) (seen.insert p)
      (seen'.insert (p.rename (ρ.renaming handle))) := by
  intro p'
  have hiff : p.rename (ρ.renaming handle) = p'.rename (ρ.renaming handle) ↔ p = p' :=
    ⟨Placeholder.rename_inj, congrArg _⟩
  simp only [Std.TreeSet.mem_insert, Placeholder.compare_eq_eq, h p', hiff]

namespace Chain

section Follow

variable {start : Item} {seen : PlaceholderSet} {p q : Placeholder}

theorem follow_seen (hp : p ∈ seen) :
    follow chain start seen p = .error (.selfReference start) := by
  rw [follow, if_pos hp]

theorem follow_hole (hp : p ∉ seen) (h : read chain p = .resolved (.hole q)) :
    follow chain start seen p = follow chain start (seen.insert p) q := by
  rw [follow.eq_def chain start seen p, if_neg hp]
  split <;> simp_all

theorem follow_item (hp : p ∉ seen) (h : read chain p = .resolved x) (hx : ∀ q, x ≠ .hole q) :
    follow chain start seen p = .ok x := by
  rw [follow, if_neg hp]
  split
  · rename_i q hq
    rw [h] at hq
    cases hq
    exact absurd rfl (hx q)
  all_goals simp_all

theorem follow_pending (hp : p ∉ seen) (h : read chain p = .pending) :
    follow chain start seen p = .ok (.hole p) := by
  rw [follow, if_neg hp]
  split <;> simp_all

theorem follow_failed {e : Fault} (hp : p ∉ seen) (h : read chain p = .failed e) :
    follow chain start seen p = .error e := by
  rw [follow, if_neg hp]
  split <;> simp_all

end Follow

theorem agrees_follow (hf : σ.Agree ρ chain chain') {start start' : Item}
    {seen seen' : PlaceholderSet} (p : Placeholder)
    (hs : PlaceholdersMirror (ρ.renaming σ.map) seen seen') :
    Agrees True (σ.Pair ρ) (follow chain start seen p)
      (follow chain' start' seen' (p.rename (ρ.renaming σ.map))) := by
  have hread := Link.sim_read hf p σ.map
  fun_induction follow chain start seen p generalizing seen' with
  | case1 seen p hp =>
    rw [follow_seen ((hs p).mpr hp)]
    trivial
  | case2 seen p hp q hq ih =>
    rw [hq] at hread
    obtain ⟨y, hy, -, rfl⟩ := hread.resolved
    rw [follow_hole (mt (hs p).mp hp) hy]
    exact ih (hs.insert p) (Link.sim_read hf q σ.map)
  | case3 seen p hp x hx hxp =>
    rw [hxp] at hread
    obtain ⟨y, hy, hxy⟩ := hread.resolved
    rw [follow_item (mt (hs p).mp hp) hy (hxy.2 ▸ Item.rename_ne_hole hx)]
    exact hxy
  | case4 seen p hp hq =>
    rw [hq] at hread
    rw [follow_pending (mt (hs p).mp hp) hread.pending]
    exact ⟨(by rintro _ ⟨⟩), rfl⟩
  | case5 seen p hp e hq =>
    rw [hq] at hread
    obtain ⟨e', he'⟩ := hread.failed
    rw [follow_failed (mt (hs p).mp hp) he']
    trivial

section Settle

variable (hf : σ.Agree ρ chain chain') (hm : heap.Mirrors (ρ.renaming σ.map) σ.dom heap')
include hf hm

theorem agrees_settle (hx : x.Within σ.dom) :
    Agrees True (σ.PairValue? ρ) (settle chain x)
      (settle chain' (x.rename (ρ.renaming σ.map))) := by
  have hsame : ∀ y y', σ.Pair ρ y y' →
      Agrees True (σ.PairValue? ρ) (pure (if y.same x then none else some y))
        (pure (if y'.same (x.rename (ρ.renaming σ.map)) then none else some y')) := by
    rintro y _ ⟨hy, rfl⟩
    rw [hm.same (fun _ _ he => ρ.slot_inj he) hy hx]
    cases y.same x with
    | true => trivial
    | false => exact ⟨hy, rfl⟩
  cases x with
  | hole p => exact (agrees_follow hf p fun q => by simp).bind hsame
  | _ => exact hsame _ _ ⟨hx, rfl⟩

theorem unsettled?_rename (hx : x.Within σ.dom) :
    unsettled? chain' (x.rename (ρ.renaming σ.map)) = none ↔ unsettled? chain x = none := by
  have h := agrees_settle hf hm hx
  unfold unsettled?
  cases hs : settle chain x <;> cases hs' : settle chain' (x.rename (ρ.renaming σ.map)) <;>
    rw [hs, hs'] at h
  case error.error => simp
  case error.ok => exact absurd trivial h
  case ok.error => exact h.elim

theorem pairValue?_settled? (hx : x.Within σ.dom) :
    σ.PairValue? ρ (settled? chain x) (settled? chain' (x.rename (ρ.renaming σ.map))) := by
  have h := agrees_settle hf hm hx
  unfold settled?
  cases hs : settle chain x <;> cases hs' : settle chain' (x.rename (ρ.renaming σ.map)) <;>
    rw [hs, hs'] at h
  case error.error => trivial
  case ok.ok => exact h
  case error.ok => exact absurd trivial h
  case ok.error => exact h.elim

theorem settled?_rename (hx : x.Within σ.dom) :
    settled? chain' (x.rename (ρ.renaming σ.map)) =
      (settled? chain x).map (Item.rename (ρ.renaming σ.map)) := by
  have h := pairValue?_settled? hf hm hx
  cases hs : settled? chain x <;> cases hs' : settled? chain' (x.rename (ρ.renaming σ.map)) <;>
    rw [hs, hs'] at h
  case none.none => rfl
  case some.some => exact congrArg some h.2
  case none.some | some.none => exact h.elim

theorem within_settled? (hx : x.Within σ.dom) (hy : settled? chain x = some y) :
    y.Within σ.dom := by
  have h := pairValue?_settled? hf hm hx
  rw [hy] at h
  cases hs' : settled? chain' (x.rename (ρ.renaming σ.map)) <;> rw [hs'] at h
  · exact h.elim
  · exact h.1

/-- Settling all that is stored keeps the heaps alike. -/
theorem mirrors_settledHeap :
    (settledHeap chain heap).Mirrors (ρ.renaming σ.map) σ.dom (settledHeap chain' heap') where
  inj := hm.inj
  closed {h k} hd hk := by
    cases ho : heap.get? h with
    | none =>
      have hnone : (settledHeap chain heap).get? h = none := by rw [get?_settledHeap, ho]; rfl
      simp [Heap.refs, Heap.items, Heap.children, hnone, refsOf] at hk
    | some o =>
      have hchildren : ∀ y ∈ o.held, y.Within σ.dom :=
        hm.within_children (x := .ref h) (by rintro _ ⟨⟩; exact hd) ho
      have hsome : (settledHeap chain heap).get? h =
          some (o.replaceChildren (settled? chain)).1 := by
        rw [get?_settledHeap, ho, Option.map_some]
      simp only [Heap.refs, Heap.items, Heap.children, hsome, Option.elim_some, refsOf,
        List.mem_filterMap] at hk
      obtain ⟨y, hy, hyk⟩ := hk
      have hwithin : y.Within σ.dom := by
        rcases Object.mem_replaceChildren hy with hy | ⟨x, hx, hxy⟩
        · exact hchildren y hy
        · exact within_settled? hf hm (hchildren x hx) hxy
      cases y <;> cases hyk
      exact hwithin k rfl
  get? {h} hd := by
    have hget := hm.get? hd
    rw [get?_settledHeap, get?_settledHeap, hget]
    cases ho : heap.get? h with
    | none => rfl
    | some o =>
      have hchildren : ∀ y ∈ o.held, y.Within σ.dom :=
        hm.within_children (x := .ref h) (by rintro _ ⟨⟩; exact hd) ho
      have hreplace := Object.replaceChildren_rename
        (fun x hx => settled?_rename hf hm (hchildren x hx))
      simp only [Option.map_some, hreplace]

theorem settling :
    Settling (ρ.renaming σ.map) σ.dom chain chain' heap heap' := by
  refine .of_mirrors (mirrors_settledHeap hf hm) fun {h} hd => ?_
  have hwithin : ∀ x ∈ heap.items h, x.Within σ.dom :=
    fun x hx => within_of_refsOf (fun k hk => hm.closed hd hk) hx
  have hitems : heap'.items (σ.map h) = (heap.items h).map (Item.rename (ρ.renaming σ.map)) :=
    hm.items hd
  change (∀ y ∈ heap'.items (σ.map h), _) ↔ _
  rw [hitems, List.forall_mem_map]
  exact forall₂_congr fun x hx => unsettled?_rename hf hm (hwithin x hx)

theorem agrees_settleProgram {program : Program}
    (hp : ∀ x ∈ Stmt.itemsAll program, x.Within σ.dom) :
    Agrees True (σ.PairStmts ρ) (settleProgram chain program)
      (settleProgram chain' (Stmt.renameAll (ρ.renaming σ.map) program)) := by
  have hiff : (Stmt.itemsAll (Stmt.renameAll (ρ.renaming σ.map) program)).findSome?
      (unsettled? chain') = none ↔
      (Stmt.itemsAll program).findSome? (unsettled? chain) = none := by
    rw [Stmt.itemsAll_rename, List.findSome?_eq_none_iff, List.findSome?_eq_none_iff,
      List.forall_mem_map]
    exact forall₂_congr fun x hx => unsettled?_rename hf hm (hp x hx)
  have hmap : Stmt.mapItemsAll (fun x => (settled? chain' x).getD x)
      (Stmt.renameAll (ρ.renaming σ.map) program) =
      Stmt.renameAll (ρ.renaming σ.map)
        (Stmt.mapItemsAll (fun x => (settled? chain x).getD x) program) := by
    refine Stmt.mapItemsAll_rename fun x hx => ?_
    rw [settled?_rename hf hm (hp x hx)]
    cases settled? chain x <;> rfl
  have hwithin : ∀ x ∈ Stmt.itemsAll
      (Stmt.mapItemsAll (fun x => (settled? chain x).getD x) program), x.Within σ.dom := by
    rw [Stmt.itemsAll_mapItemsAll, List.forall_mem_map]
    intro x hx
    cases hy : settled? chain x with
    | none => exact hp x hx
    | some y => exact within_settled? hf hm (hp x hx) hy
  rw [settleProgram_eq, settleProgram_eq]
  cases hs : (Stmt.itemsAll program).findSome? (unsettled? chain) with
  | none =>
    rw [hiff.mpr hs]
    exact ⟨hwithin, hmap⟩
  | some e =>
    cases hs' : (Stmt.itemsAll (Stmt.renameAll (ρ.renaming σ.map) program)).findSome?
        (unsettled? chain') with
    | none => cases hs.symm.trans (hiff.mp hs')
    | some e' => trivial

theorem agrees_settledProgram {d d' : Draft} (hp : σ.PairStmts ρ d.program d'.program) :
    Agrees True (σ.PairStmts ρ) (d.settledProgram chain) (d'.settledProgram chain') := by
  have hlow := Stmt.lowered_lowerAll hf d.program hp.1
  rw [← hp.2] at hlow
  unfold Draft.settledProgram lowerProgram
  match hl : Stmt.lowerAll chain d.program none, hl' : Stmt.lowerAll chain' d'.program none with
  | (p, none), (p', none) =>
    rw [hl, hl'] at hlow
    obtain ⟨hwithin, rfl⟩ := hlow
    exact agrees_settleProgram hf hm hwithin
  | (_, some _), (_, some _) => trivial
  | (_, none), (_, some _) | (_, some _), (_, none) =>
    rw [hl, hl'] at hlow
    exact hlow.elim

end Settle

end Chain

end Settling

end Comptime
