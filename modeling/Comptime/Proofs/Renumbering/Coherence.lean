import Comptime.Proofs.Renumbering.Confluence

/-! Sweeping stalls alike on both sides, and so specializing a type gives paired results. -/
namespace Comptime

variable {ρ : Renumbering} {n : Nat} {l r : Prop} {q q' : Qualifier} {σ₀ σ τ : Link}
  {w₀ w₀' w w' : World} {log log' : List Freeze} {a : SlotAddr} {c c' : Bool}

namespace Twins

variable (hT : Twins ρ n l r q q' σ₀ w₀ w₀')
include hT

section Slots

variable (hA : w₀.Tries q log w) (hB : w₀'.Tries q' log' w')
include hA hB

theorem open_or_frozen {s : Slot} (hs : w.context.frame.slot? a = some s) :
    (∃ e, w'.context.frame.slot? (ρ.slot a) = some ⟨e, none⟩) ∨
      ∃ y, w'.context.frame.Frozen (ρ.slot a) y := by
  have he := hT.expr? hA hB a
  simp only [Frame.expr?, hs, Option.map_some] at he
  obtain ⟨⟨e', y⟩, hs', -⟩ := Option.map_eq_some_iff.mp he
  cases y with
  | none => exact Or.inl ⟨e', hs'⟩
  | some y => exact Or.inr ⟨y, e', hs'⟩

theorem open_or_frozen' {s : Slot} (hs : w'.context.frame.slot? (ρ.slot a) = some s) :
    (∃ e, w.context.frame.slot? a = some ⟨e, none⟩) ∨ ∃ x, w.context.frame.Frozen a x := by
  have he := hT.expr? hA hB a
  simp only [Frame.expr?, hs, Option.map_some] at he
  obtain ⟨e, he, -⟩ := Option.map_eq_some_iff.mp he.symm
  obtain ⟨⟨e', x⟩, hs', -⟩ := Option.map_eq_some_iff.mp he
  cases x with
  | none => exact Or.inl ⟨e', hs'⟩
  | some x => exact Or.inr ⟨x, e', hs'⟩

end Slots

/-- Once the left has stalled, it has frozen what the right can freeze, unless that needs what only
the right sees further out. -/
theorem frozenRight_of_stalled (hr : r) (hS : World.Stalled q w₀ w c)
    (hB : w₀'.Tries q' log' w') : FrozenRight ρ w w' := by
  obtain ⟨logA, hA⟩ := hS.tries
  induction hB with
  | start => exact fun _ _ hy => absurd hy hT.fresh'
  | wait _ _ _ ih => exact ih
  | @freeze log' w' b e' y heap' hB hs' he' ih =>
    intro a y' hy'
    rcases (World.frozen_freeze hs').mp hy' with ⟨rfl, rfl⟩ | hy'
    · refine (hT.open_or_frozen' hA hB hs').resolve_left fun ⟨e, hs⟩ => ?_
      obtain ⟨logU, u, e₁, heap, hU, hctx, hs₁, he⟩ := hS.waits (Frame.isOpen_iff.mpr ⟨e, hs⟩)
      rw [← hctx] at hs₁
      obtain ⟨σ, hk, -⟩ := hT.exists_linked hU hB
      have hsim := hT.step hU hB False True hk False.elim (fun _ => ⟨hr, ih.congr hctx⟩) hs₁ hs'
      rw [he, he'] at hsim
      exact hsim trivial
    · exact ih hy'

theorem frozenLeft_of_stalled (hl : l) (hS : World.Stalled q' w₀' w' c)
    (hA : w₀.Tries q log w) : FrozenLeft ρ w w' := by
  obtain ⟨logB, hB⟩ := hS.tries
  induction hA with
  | start => exact fun _ _ hx => absurd hx hT.fresh
  | wait _ _ _ ih => exact ih
  | @freeze log w b e x heap hA hs he ih =>
    intro a x' hx'
    rcases (World.frozen_freeze hs).mp hx' with ⟨rfl, rfl⟩ | hx'
    · refine (hT.open_or_frozen hA hB hs).resolve_left fun ⟨e', hs'⟩ => ?_
      obtain ⟨logU, u, e₁, heap', hU, hctx, hs₁, he'⟩ := hS.waits (Frame.isOpen_iff.mpr ⟨e', hs'⟩)
      rw [← hctx] at hs₁
      obtain ⟨σ, hk, -⟩ := hT.exists_linked hA hU
      have hsim := hT.step hA hU True False hk (fun _ => ⟨hl, ih.congr hctx⟩) False.elim hs hs₁
      rw [he, he'] at hsim
      exact hsim trivial
    · exact ih hx'

/-- If a slot fails on the left, the right cannot stall without a failure, unless it still waits
for what only the left sees further out. -/
theorem not_fails (hS : World.Stalled q' w₀' w' c) (hc : c ∨ l) (fault : Fault) :
    ¬World.Fails q w₀ fault := by
  rintro ⟨logU, u, a, e, heap, hU, hs, he⟩
  obtain ⟨logB, hB⟩ := hS.tries
  rcases hT.open_or_frozen hU hB hs with ⟨e', hs'⟩ | ⟨y, hy⟩
  · have hopen := Frame.isOpen_iff.mpr ⟨e', hs'⟩
    rcases hc with hc | hl
    · exact hS.done hc _ hopen
    · obtain ⟨logV, v, e₁, heap', hV, hctx, hs₁, he'⟩ := hS.waits hopen
      rw [← hctx] at hs₁
      obtain ⟨σ, hk, -⟩ := hT.exists_linked hU hV
      have hleft := (hT.frozenLeft_of_stalled hl hS hU).congr hctx
      have hsim := hT.step hU hV True False hk (fun _ => ⟨hl, hleft⟩) False.elim hs hs₁
      rw [he, he'] at hsim
      exact hsim trivial
  · obtain ⟨ev, hev, hb, rfl⟩ := hB.mem_log hT.fresh' hy
    obtain ⟨⟨logV, hV⟩, ⟨e', hs', he'⟩, -⟩ := hB.freeze_of hT.safe' hT.sound' hev
    obtain ⟨σ, hk, -⟩ := hT.exists_linked hU hV
    have hsim := hT.step hU hV False False hk False.elim False.elim hs (hb ▸ hs')
    rw [he, he'] at hsim
    exact hsim

theorem not_fails' (hS : World.Stalled q w₀ w c) (hc : c ∨ r) (fault : Fault) :
    ¬World.Fails q' w₀' fault := by
  rintro ⟨logU, u, b, e', heap', hU, hs', he'⟩
  obtain ⟨logA, hA⟩ := hS.tries
  obtain ⟨a, rfl⟩ := hT.range hU hs'
  rcases hT.open_or_frozen' hA hU hs' with ⟨e, hs⟩ | ⟨x, hx⟩
  · have hopen := Frame.isOpen_iff.mpr ⟨e, hs⟩
    rcases hc with hc | hr
    · exact hS.done hc _ hopen
    · obtain ⟨logV, v, e₁, heap, hV, hctx, hs₁, he⟩ := hS.waits hopen
      rw [← hctx] at hs₁
      obtain ⟨σ, hk, -⟩ := hT.exists_linked hV hU
      have hright := (hT.frozenRight_of_stalled hr hS hU).congr hctx
      have hsim := hT.step hV hU False True hk False.elim (fun _ => ⟨hr, hright⟩) hs₁ hs'
      rw [he, he'] at hsim
      exact hsim trivial
  · obtain ⟨ev, hev, rfl, rfl⟩ := hA.mem_log hT.fresh hx
    obtain ⟨⟨logV, hV⟩, ⟨e, hs, he⟩, -⟩ := hA.freeze_of hT.safe hT.sound hev
    obtain ⟨σ, hk, -⟩ := hT.exists_linked hV hU
    have hsim := hT.step hV hU False False hk False.elim False.elim hs hs'
    rw [he, he'] at hsim
    exact hsim

/-- Once the right is done, it has frozen all that the left has. -/
theorem frozenLeft_of_done (hA : w₀.Tries q log w) (hS : World.Stalled q' w₀' w' true) :
    FrozenLeft ρ w w' := by
  obtain ⟨logB, hB⟩ := hS.tries
  rintro a x ⟨e, hs⟩
  exact (hT.open_or_frozen hA hB hs).resolve_left fun ho => hS.done rfl _ (Frame.isOpen_iff.mpr ho)

theorem frozenRight_of_done (hS : World.Stalled q w₀ w true) (hB : w₀'.Tries q' log' w') :
    FrozenRight ρ w w' := by
  obtain ⟨logA, hA⟩ := hS.tries
  rintro a y ⟨e, hs⟩
  exact (hT.open_or_frozen' hA hB hs).resolve_left fun ho => hS.done rfl _ (Frame.isOpen_iff.mpr ho)

theorem done_right (hS : World.Stalled q w₀ w true) (hS' : World.Stalled q' w₀' w' c') (hl : l) :
    c' = true := by
  obtain ⟨logA, hA⟩ := hS.tries
  obtain ⟨logB, hB⟩ := hS'.tries
  by_contra hc
  obtain ⟨b, ho⟩ := hS'.left (Bool.eq_false_iff.mpr hc)
  obtain ⟨e', hs'⟩ := Frame.isOpen_iff.mp ho
  obtain ⟨a, rfl⟩ := hT.range hB hs'
  rcases hT.open_or_frozen' hA hB hs' with hopen | ⟨x, hx⟩
  · exact hS.done rfl _ (Frame.isOpen_iff.mpr hopen)
  · obtain ⟨y, e₁, hy⟩ := hT.frozenLeft_of_stalled hl hS' hA hx
    cases hs'.symm.trans hy

theorem done_left (hS : World.Stalled q w₀ w c) (hS' : World.Stalled q' w₀' w' true) (hr : r) :
    c = true := by
  obtain ⟨logA, hA⟩ := hS.tries
  obtain ⟨logB, hB⟩ := hS'.tries
  by_contra hc
  obtain ⟨a, ho⟩ := hS.left (Bool.eq_false_iff.mpr hc)
  obtain ⟨e, hs⟩ := Frame.isOpen_iff.mp ho
  rcases hT.open_or_frozen hA hB hs with hopen | ⟨y, hy⟩
  · exact hS'.done rfl _ (Frame.isOpen_iff.mpr hopen)
  · obtain ⟨x, e₁, hx⟩ := hT.frozenRight_of_stalled hr hS hB hy
    cases hs.symm.trans hx

end Twins

variable (ρ n) in
/-- Two frames with the same slots, all of them open. -/
structure Link.Blank (σ : Link) (f f' : Frame) : Prop where
  frames : σ.Frames ρ True True f f'
  sound : f.Sound n σ.left
  sound' : f'.Sound n σ.right
  fresh : ∀ {a x}, ¬f.Frozen a x
  fresh' : ∀ {a x}, ¬f'.Frozen a x

theorem Link.Blank.le {f f' : Frame} (hf : σ.Blank ρ n f f') (hs : σ.Le τ) : τ.Blank ρ n f f' :=
  { hf with
    frames := hf.frames.mono hs.toSub id id
    sound := hf.sound.le hs.left
    sound' := hf.sound'.le hs.right }

section Inside

variable {chain chain' : Chain} {f f' : Frame}

theorem Link.Blank.twins {heap heap' : Heap} (hf : σ.Blank ρ n f f')
    (hc : σ.Chains ρ n l r chain chain') (hh : σ.Heaps ρ n heap heap')
    (hq : Qualifier.Sim ρ n q q') (hs : Qualifier.Keeps (.below n) q)
    (hs' : Qualifier.Keeps (.below n) q') :
    Twins ρ n l r q q' σ ⟨⟨f, chain⟩, heap⟩ ⟨⟨f', chain'⟩, heap'⟩ := by
  refine ⟨hq, hs, hs', hh, hc.frames, hf.frames, hc.based, ?_, ?_, hf.fresh, hf.fresh'⟩
  · refine ⟨hh.sound, hh.sound.base, fun hmem => ?_⟩
    rw [← hh.left]
    rcases List.mem_cons.mp hmem with rfl | hmem
    · exact hf.sound
    · exact hc.sound.frame hmem
  · refine ⟨hh.sound', hh.sound'.base, fun hmem => ?_⟩
    rw [← hh.right]
    rcases List.mem_cons.mp hmem with rfl | hmem
    · exact hf.sound'
    · exact hc.sound'.frame hmem

/-- Frames of open slots are resolved alike inside paired chains. -/
theorem sim_resolveInside (hq : Qualifier.Sim ρ n q q') (hs : Qualifier.Keeps (.below n) q)
    (hs' : Qualifier.Keeps (.below n) q') (hc : σ.Chains ρ n l r chain chain')
    (hf : σ.Blank ρ n f f') :
    Eval.Sim ρ n l r (fun τ => τ.Chains ρ n l r) σ (resolveInside q chain f)
      (resolveInside q' chain' f') := by
  intro τ heap heap' hle hh
  have hT := (hf.le hle).twins (hc.le hle) hh hq hs hs'
  unfold resolveInside
  match hr : World.stallWith q ⟨⟨f, chain⟩, heap⟩,
    hr' : World.stallWith q' ⟨⟨f', chain'⟩, heap'⟩ with
  | (.error e, w), (.error e', w') => trivial
  | (.error e, w), (.ok ⟨k, c⟩, w') =>
    have hF := World.stallWith_error hr
    have hS := World.stallWith_ok hr'
    cases c with
    | true => exact hT.not_fails hS (Or.inl rfl) _ hF
    | false => exact fun hl => hT.not_fails hS (Or.inr hl) _ hF
  | (.ok ⟨k, c⟩, w), (.error e', w') =>
    have hS := World.stallWith_ok hr
    have hF := World.stallWith_error hr'
    cases c with
    | true => exact hT.not_fails' hS (Or.inl rfl) _ hF
    | false => exact fun hr => hT.not_fails' hS (Or.inr hr) _ hF
  | (.ok ⟨k, c⟩, w), (.ok ⟨k', c'⟩, w') =>
    have hS := World.stallWith_ok hr
    have hS' := World.stallWith_ok hr'
    cases c with
    | false =>
      cases c' with
      | false => trivial
      | true =>
        intro hr
        cases hT.done_left hS hS' hr
    | true =>
      cases c' with
      | false =>
        intro hl
        cases hT.done_right hS hS' hl
      | true =>
        obtain ⟨logA, hA⟩ := hS.tries
        obtain ⟨logB, hB⟩ := hS'.tries
        obtain ⟨υ, hk, -⟩ := hT.exists_linked hA hB
        exact ⟨υ, hk.le, hk.heaps, hT.chains hA hB hk
          (fun hl => ⟨hl, hT.frozenLeft_of_done hA hS'⟩)
          fun hr => ⟨hr, hT.frozenRight_of_done hS hB⟩⟩

end Inside

end Comptime
