import Comptime.Proofs.Renumbering.Link

/-! Links cut down to an earlier heap, and put together again after both sides have gone on from
there. -/
namespace Comptime

variable {ρ : Renumbering} {n : Nat} {σ τ υ : Link} {heap heap' heap₁ heap₁' : Heap} {h : Handle}

namespace Link

theorem Heaps.get?_of_sub (hh : σ.Heaps ρ n heap heap') (hs : σ.Sub τ) (hd : σ.dom h) :
    heap'.get? (τ.map h) = (heap.get? h).map (Object.rename (ρ.renaming τ.map)) := by
  rw [hs.map hd]
  refine (hh.mirrors.get? hd).trans ?_
  cases ho : heap.get? h with
  | none => rfl
  | some o =>
    have hwithin : (Item.ref h).Within σ.dom := by
      rintro _ ⟨⟩
      exact hd
    have hobj : heap.object? (.ref h) = some o := ho
    exact congrArg some (Object.rename_congr
      (fun x hx => (hs.rename (hh.mirrors.within_children hwithin hobj x hx)).symm) rfl rfl)

/-- The link for heaps that have grown, by objects that stand for nothing. -/
def widen (σ : Link) (left right : Nat) : Link := { σ with left, right }

theorem le_widen {left right : Nat} (hl : σ.left ≤ left) (hr : σ.right ≤ right) :
    σ.Le (σ.widen left right) where
  dom := id
  map _ := rfl
  left := hl
  right := hr
  fresh := Or.inl

theorem Heaps.widen (hh : σ.Heaps ρ n heap heap') (hg : heap.Grows heap₁)
    (hg' : heap'.Grows heap₁') (hs : heap₁.Sound n) (hs' : heap₁'.Sound n) :
    (σ.widen heap₁.size heap₁'.size).Heaps ρ n heap₁ heap₁' := by
  refine ⟨⟨hh.mirrors.inj, ?_, ?_⟩, ?_, rfl, rfl, hs, hs'⟩
  · intro h k hd hk
    rw [hg.refs (hh.lt hd)] at hk
    exact hh.mirrors.closed hd hk
  · intro h hd
    have hold := hh.mirrors.get? hd
    rw [← hg.get? (hh.lt hd)] at hold
    exact (hg'.get? (hh.map_lt hd)).trans hold
  · intro h hd
    exact Nat.lt_of_lt_of_le (hh.lt hd) hg.size

/-- The part of the link that maps below a bound. -/
def restrict (σ : Link) (bound : Nat) : Link :=
  { σ with dom := fun h => σ.dom h ∧ σ.map h < bound, right := bound }

theorem Heaps.restrict (hh : σ.Heaps ρ n heap heap') (hg : heap₁'.Grows heap')
    (hs : heap₁'.Sound n) : (σ.restrict heap₁'.size).Heaps ρ n heap heap₁' := by
  refine ⟨⟨?_, ?_, ?_⟩, fun hd => hh.lt hd.1, hh.left, rfl, hh.sound, hs⟩
  · intro h k hd hk he
    exact hh.mirrors.inj hd.1 hk.1 he
  · intro h k hd hk
    have hmem : σ.map k ∈ heap₁'.refs (σ.map h) := by
      have := hh.mirrors.refs hd.1
      rw [← hg.refs hd.2]
      change heap'.refs (σ.map h) = _ at this
      rw [this]
      exact List.mem_map_of_mem hk
    exact ⟨hh.mirrors.closed hd.1 hk, hs.closed _ hd.2 _ hmem⟩
  · intro h hd
    exact (hg.get? hd.2).symm.trans (hh.mirrors.get? hd.1)

theorem Le.restrict (hle : τ.Le σ) (hh : τ.Heaps ρ n heap heap') {bound : Nat}
    (hb : heap'.size ≤ bound) : τ.Le (σ.restrict bound) where
  dom hd := ⟨hle.dom hd, hle.map hd ▸ Nat.lt_of_lt_of_le (hh.map_lt hd) hb⟩
  map := hle.map
  left := hle.left
  right := hh.right ▸ hb
  fresh hd := hle.fresh hd.1

theorem Pair.restrict {x y : Item} {bound : Nat} (hp : σ.Pair ρ x y) (hy : y.Within (· < bound)) :
    (σ.restrict bound).Pair ρ x y := by
  refine ⟨?_, hp.2⟩
  rintro h rfl
  exact ⟨hp.1 h rfl, hy _ hp.2⟩

/-- Handles below the bound are mapped by the first link, the others by the second. -/
def merge (σ υ : Link) (bound : Nat) : Link where
  dom h := if h < bound then σ.dom h else υ.dom h
  map h := if h < bound then σ.map h else υ.map h
  left := υ.left
  right := σ.right

section Merge

variable {b : Nat} (hh : σ.Heaps ρ n heap heap') (hle : (σ.restrict b).Le υ)
include hh

theorem Heaps.sub_merge : σ.Sub (σ.merge υ heap.size) where
  dom {h} hd := by
    change if h < heap.size then σ.dom h else υ.dom h
    rwa [if_pos (hh.lt hd)]
  map hd := if_pos (hh.lt hd)

include hle

theorem Heaps.merge_sub : υ.Sub (σ.merge υ heap.size) := by
  have hold : ∀ {h}, υ.dom h → h < heap.size → (σ.restrict b).dom h := by
    intro h hd hlt
    refine (hle.fresh hd).resolve_right fun hnew => ?_
    have hleft : heap.size ≤ h := hh.left ▸ hnew.1
    exact absurd hlt (Nat.not_lt.mpr hleft)
  refine ⟨fun {h} hd => ?_, fun {h} hd => ?_⟩
  · change if h < heap.size then σ.dom h else υ.dom h
    split
    · rename_i hlt
      exact (hold hd hlt).1
    · exact hd
  · change (if h < heap.size then σ.map h else υ.map h) = υ.map h
    split
    · rename_i hlt
      exact (hle.map (hold hd hlt)).symm
    · rfl

/-- New handles are mapped past the bound. -/
theorem Heaps.fresh_merge (hd : υ.dom h) (hn : ¬h < heap.size) : b ≤ υ.map h := by
  rcases hle.fresh hd with hold | hnew
  · exact absurd (hh.lt hold.1) hn
  · exact hnew.2

variable (hυ : υ.Heaps ρ n heap₁ heap₁') (hg : heap.Grows heap₁) (hg' : heap₁'.Grows heap')
include hυ hg hg'

/-- Two sides went on from a common point, and one of them further. The pairs of the first link lie
apart from the objects made since that point, so both links together are one. -/
theorem Heaps.merge (ha : ∀ {h}, σ.dom h → σ.map h < b ∨ heap₁'.size ≤ σ.map h) :
    (σ.merge υ heap.size).Heaps ρ n heap₁ heap' := by
  have hsub := hh.sub_merge (υ := υ)
  have hsub' := hh.merge_sub hle
  have hcases : ∀ {h}, (σ.merge υ heap.size).dom h →
      h < heap.size ∧ σ.dom h ∨ ¬h < heap.size ∧ υ.dom h := by
    intro h hd
    change (if h < heap.size then σ.dom h else υ.dom h) at hd
    split at hd
    · exact Or.inl ⟨‹_›, hd⟩
    · exact Or.inr ⟨‹_›, hd⟩
  -- no pair of the one link ends where a new pair of the other does
  have hne : ∀ {h k}, σ.dom h → υ.dom k → ¬k < heap.size → σ.map h ≠ υ.map k := by
    intro h k hd hk hn he
    have hfresh := hh.fresh_merge hle hk hn
    have hlt := hυ.map_lt hk
    rcases ha hd with hlow | hhigh
    · exact absurd hlow (Nat.not_lt.mpr (he ▸ hfresh))
    · exact absurd hlt (Nat.not_lt.mpr (he ▸ hhigh))
  refine ⟨⟨?_, ?_, ?_⟩, ?_, hυ.left, hh.right, hυ.sound, hh.sound'⟩
  · intro h k hd hk he
    change (σ.merge υ heap.size).map h = (σ.merge υ heap.size).map k at he
    rcases hcases hd with ⟨-, hd⟩ | ⟨hn, hd⟩ <;> rcases hcases hk with ⟨-, hk⟩ | ⟨hn', hk⟩
    · rw [hsub.map hd, hsub.map hk] at he
      exact hh.mirrors.inj hd hk he
    · rw [hsub.map hd, hsub'.map hk] at he
      exact absurd he (hne hd hk hn')
    · rw [hsub'.map hd, hsub.map hk] at he
      exact absurd he.symm (hne hk hd hn)
    · rw [hsub'.map hd, hsub'.map hk] at he
      exact hυ.mirrors.inj hd hk he
  · intro h k hd hk
    rcases hcases hd with ⟨hlt, hd⟩ | ⟨hn, hd⟩
    · rw [hg.refs hlt] at hk
      exact hsub.dom (hh.mirrors.closed hd hk)
    · exact hsub'.dom (hυ.mirrors.closed hd hk)
  · intro h hd
    change heap'.get? ((σ.merge υ heap.size).map h) = _
    rcases hcases hd with ⟨hlt, hd⟩ | ⟨hn, hd⟩
    · rw [hh.get?_of_sub hsub hd, hg.get? hlt]
    · rw [← hυ.get?_of_sub hsub' hd, hsub'.map hd, hg'.get? (hυ.map_lt hd)]
  · intro h hd
    rcases hcases hd with ⟨hlt, hd⟩ | ⟨hn, hd⟩
    · exact Nat.lt_of_lt_of_le hlt hg.size
    · exact hυ.lt hd

end Merge

end Link

end Comptime
