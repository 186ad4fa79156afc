import Comptime.Proofs.Renaming.Membership

/-! Membership in a type is the largest relation that the rules of the kinds of types allow. The
check takes a pair of objects for granted once it has met it, also in another branch and after the
pair was done; since one failure fails the whole check, nothing is granted that does not hold. -/
namespace Comptime

/-- The item is a record with a feature of this anchor. -/
def Heap.Carries (heap : Heap) (x anchor : Item) : Prop :=
  ∃ features fields, heap.object? x = some (.record features fields) ∧
    ∃ f ∈ features, ∃ name key own, heap.object? f = some (.feature name key own) ∧ key.same anchor

/-- The rule of each kind of type: what an item of it is, with `R` between the types of elements and
fields, as items, and what should belong to them. -/
def TypeValue.Fits (heap : Heap) (R : Item → Item → Prop) (t : TypeValue) (x : Item) : Prop :=
  match t.kind with
  | .missing => ∃ reason, x = .absent reason
  | .undef => x = .undefined
  | .null => x = .null
  | .bool => ∃ b, x = .bool b
  | .num => ∃ n, x = .num n
  | .str => ∃ s, x = .str s
  | .list => ∃ items, heap.object? x = some (.seq items)
  | .listOf element => ∃ items, heap.object? x = some (.seq items) ∧ ∀ y ∈ items, R element y
  | .type => ∃ u, heap.object? x = some (.type u)
  | .anchor => ∃ name, heap.object? x = some (.anchor name)
  | .feature anchor =>
    (∃ name key fields, heap.object? x = some (.feature name key fields) ∧ key.same anchor) ∨
      heap.Carries x anchor
  | .object features fields =>
    ∃ carried own, heap.object? x = some (.record carried own) ∧
      (∀ anchor ∈ features, heap.Carries x anchor) ∧
      ∀ f ∈ fields, ∃ y, own.lookup f.1 = some y ∧ R f.2 y
  | .generic _ => False

/-- Membership to a depth. What is no type contains nothing. -/
def TypeValue.ContainsAt (heap : Heap) : Nat → TypeValue → Item → Prop
  | 0, _, _ => True
  | n + 1, t, x => t.Fits heap (fun a y => ∃ u, heap.type? a = some u ∧ u.ContainsAt heap n y) x

/-- The relation holds only where the rules allow it. -/
def Heap.Respects (heap : Heap) (R : Item → Item → Prop) : Prop :=
  ∀ a x, R a x → ∃ t, heap.type? a = some t ∧ t.Fits heap R x

variable {heap : Heap} {R : Item → Item → Prop} {t : TypeValue} {x : Item}

section Rules

theorem Heap.hasFeature_iff {anchor : Item} : heap.hasFeature x anchor ↔ heap.Carries x anchor := by
  unfold Heap.hasFeature Heap.Carries
  split
  · rename_i features fields ho
    simp only [List.any_eq_true, ho, Option.some.injEq, Object.record.injEq]
    constructor
    · rintro ⟨f, hf, hkey⟩
      split at hkey
      · rename_i hof
        exact ⟨features, fields, ⟨rfl, rfl⟩, f, hf, _, _, _, hof, hkey⟩
      · cases hkey
    · rintro ⟨_, _, ⟨rfl, rfl⟩, f, hf, name, key, own, hof, hkey⟩
      refine ⟨f, hf, ?_⟩
      rwa [hof]
  · rename_i hno
    simp only [Bool.false_eq_true, false_iff]
    rintro ⟨features, fields, ho, -⟩
    exact hno features fields ho

theorem fieldDemands_iff {own fields : Fields} :
    (∀ f ∈ fields, ∃ y, own.lookup f.1 = some y ∧ R f.2 y) ↔
      ∃ ds, fieldDemands own fields = some ds ∧ ∀ d ∈ ds, R d.1 d.2 := by
  induction fields with
  | nil => simp [fieldDemands]
  | cons f fields ih =>
    obtain ⟨name, type⟩ := f
    rw [List.forall_mem_cons, ih]
    simp only [fieldDemands]
    constructor
    · rintro ⟨⟨y, hy, hr⟩, ds, hds, hrs⟩
      exact ⟨(type, y) :: ds, by simp [hy, hds], List.forall_mem_cons.mpr ⟨hr, hrs⟩⟩
    · rintro ⟨ds, hds, hr⟩
      obtain ⟨y, hy, hds⟩ := Option.bind_eq_some_iff.mp hds
      obtain ⟨es, hes, hds⟩ := Option.bind_eq_some_iff.mp hds
      cases hds
      rw [List.forall_mem_cons] at hr
      exact ⟨⟨y, hy, hr.1⟩, es, hes, hr.2⟩

theorem provided_iff {b : Bool} :
    (∃ ds, provided b = some ds ∧ ∀ d ∈ ds, R d.1 d.2) ↔ b = true := by
  cases b <;> simp [provided]

/-- An item fits a type if one step of the check leaves demands that hold. -/
theorem TypeValue.fits_iff :
    t.Fits heap R x ↔ ∃ ds, t.demands heap x = some ds ∧ ∀ d ∈ ds, R d.1 d.2 := by
  unfold TypeValue.Fits TypeValue.demands
  cases t.kind with
  | missing | undef | null | bool | num | str => cases x <;> simp
  | generic => simp
  | list | type | anchor =>
    cases heap.object? x with
    | none => simp
    | some o => cases o <;> simp
  | listOf element =>
    cases heap.object? x with
    | none => simp
    | some o =>
      cases o with
      | seq items =>
        simp only [Option.some.injEq, Object.seq.injEq, exists_eq_left', List.forall_mem_map]
      | _ => simp
  | feature anchor =>
    simp only [← Heap.hasFeature_iff]
    cases ho : heap.object? x with
    | none => simp [Heap.hasFeature, ho]
    | some o =>
      cases o with
      | feature name key fields =>
        rw [provided_iff]
        simp [Heap.hasFeature, ho, and_assoc]
      | record carried own =>
        rw [provided_iff]
        simp
      | _ => simp [Heap.hasFeature, ho]
  | object features fields =>
    simp only [← Heap.hasFeature_iff, fieldDemands_iff]
    cases heap.object? x with
    | none => simp
    | some o =>
      cases o with
      | record carried own =>
        simp only [Option.some.injEq, Object.record.injEq, ← List.all_eq_true]
        constructor
        · rintro ⟨_, _, ⟨rfl, rfl⟩, hall, hds⟩
          rwa [if_pos hall]
        · intro hds
          split at hds
          · exact ⟨carried, own, ⟨rfl, rfl⟩, ‹_›, hds⟩
          · simp at hds
      | _ => simp

theorem TypeValue.Fits.mono {S : Item → Item → Prop} (h : t.Fits heap R x)
    (hRS : ∀ a y, R a y → S a y) : t.Fits heap S x := by
  obtain ⟨ds, hds, hr⟩ := TypeValue.fits_iff.mp h
  exact TypeValue.fits_iff.mpr ⟨ds, hds, fun d hd => hRS _ _ (hr d hd)⟩

/-- A relation that respects the rules holds to every depth. -/
theorem Heap.Respects.containsAt (hR : heap.Respects R) (n : Nat) (h : t.Fits heap R x) :
    t.ContainsAt heap n x := by
  induction n generalizing t x with
  | zero => trivial
  | succ n ih =>
    refine h.mono fun a y hay => ?_
    obtain ⟨u, hu, hfits⟩ := hR a y hay
    exact ⟨u, hu, ih hfits⟩

end Rules

section Success

/-- The demand holds if all pairs in `M` do. -/
def Heap.Settled (heap : Heap) (M : Handle × Handle → Prop) (d : Demand) : Prop :=
  match d.key? with
  | some k => M k
  | none => heap.expand d = some []

variable {M : Handle × Handle → Prop} {met : PairSet} {ds : List Demand}

/-- A check that succeeds ends with a set of pairs that need nothing but each other. -/
theorem Heap.exists_settled (h : heap.meets met ds = true) :
    ∃ M : Handle × Handle → Prop, (∀ k ∈ met, M k) ∧ (∀ d ∈ ds, heap.Settled M d) ∧
      ∀ k, M k → k ∈ met ∨ ∃ es, heap.expand (.ref k.1, .ref k.2) = some es ∧
        ∀ e ∈ es, heap.Settled M e := by
  fun_induction Heap.meets heap met ds with
  | case1 met => exact ⟨(· ∈ met), fun _ hk => hk, List.forall_mem_nil _, fun _ hk => .inl hk⟩
  | case2 met d rest hk ih =>
    obtain ⟨hd, hrest⟩ := Bool.and_eq_true_iff.mp h
    obtain ⟨M, hmet, hsettled, hM⟩ := ih hrest
    obtain ⟨es, hes⟩ := Option.isSome_iff_exists.mp hd
    have hd : heap.Settled M d := by
      rw [Heap.Settled, hk]
      exact Heap.expand_of_key?_none hk hes ▸ hes
    exact ⟨M, hmet, List.forall_mem_cons.mpr ⟨hd, hsettled⟩, hM⟩
  | case3 met d rest k hk hmem ih =>
    obtain ⟨M, hmet, hsettled, hM⟩ := ih h
    have hd : heap.Settled M d := by
      rw [Heap.Settled, hk]
      exact hmet k hmem
    exact ⟨M, hmet, List.forall_mem_cons.mpr ⟨hd, hsettled⟩, hM⟩
  | case4 => cases h
  | case5 met d rest k hk hmem es hes ih =>
    obtain ⟨M, hmet, hsettled, hM⟩ := ih h
    rw [List.forall_mem_append] at hsettled
    have hd : heap.Settled M d := by
      rw [Heap.Settled, hk]
      exact hmet k (Std.TreeSet.mem_insert.mpr (.inl (compare_pair_eq.mpr rfl)))
    refine ⟨M, fun j hj => hmet j (Std.TreeSet.mem_insert.mpr (.inr hj)),
      List.forall_mem_cons.mpr ⟨hd, hsettled.2⟩, fun j hj => ?_⟩
    rcases hM j hj with hj | hj
    · rcases Std.TreeSet.mem_insert.mp hj with hj | hj
      · -- the pair met here: the rest of the check has settled what it demands
        obtain rfl := compare_pair_eq.mp hj
        exact .inr ⟨es, Demand.eq_of_key? hk ▸ hes, hsettled.1⟩
      · exact .inl hj
    · exact .inr hj

theorem Heap.respects_settled
    (hM : ∀ k, M k → ∃ es, heap.expand (.ref k.1, .ref k.2) = some es ∧
      ∀ e ∈ es, heap.Settled M e) :
    heap.Respects fun a x => heap.Settled M (a, x) := by
  intro a x hs
  have hex : ∃ es, heap.expand (a, x) = some es ∧ ∀ e ∈ es, heap.Settled M e := by
    unfold Heap.Settled at hs
    split at hs
    · rename_i k hk
      rw [Demand.eq_of_key? hk]
      exact hM k hs
    · exact ⟨[], hs, List.forall_mem_nil _⟩
  obtain ⟨es, hes, hsettled⟩ := hex
  obtain ⟨t, ht, hds⟩ := Heap.expand_eq_some.mp hes
  exact ⟨t, ht, TypeValue.fits_iff.mpr ⟨es, hds, hsettled⟩⟩

/-- Demands that pass the check belong to a relation that respects the rules. -/
theorem Heap.exists_respects (h : heap.meets {} ds = true) :
    ∃ R, heap.Respects R ∧ ∀ d ∈ ds, R d.1 d.2 := by
  obtain ⟨M, -, hsettled, hM⟩ := Heap.exists_settled h
  exact ⟨_, Heap.respects_settled fun k hk => (hM k hk).resolve_left (by simp), hsettled⟩

theorem TypeValue.exists_respects (h : t.contains heap x = true) :
    ∃ R, heap.Respects R ∧ t.Fits heap R x := by
  rw [TypeValue.contains_eq] at h
  cases hds : t.demands heap x with
  | none =>
    rw [hds] at h
    cases h
  | some ds =>
    rw [hds] at h
    obtain ⟨R, hR, hall⟩ := Heap.exists_respects h
    exact ⟨R, hR, TypeValue.fits_iff.mpr ⟨ds, hds, hall⟩⟩

end Success

section Failure

/-- The demand holds to every depth. -/
def Heap.Lasts (heap : Heap) (d : Demand) : Prop :=
  ∀ n, ∃ t, heap.type? d.1 = some t ∧ t.ContainsAt heap n d.2

variable {met : PairSet} {ds : List Demand}

theorem TypeValue.exists_lasting (h : ∀ n, t.ContainsAt heap n x) :
    ∃ ds, t.demands heap x = some ds ∧ ∀ d ∈ ds, heap.Lasts d := by
  obtain ⟨ds, hds, -⟩ := TypeValue.fits_iff.mp (h 1)
  refine ⟨ds, hds, fun d hd n => ?_⟩
  obtain ⟨es, hes, hall⟩ := TypeValue.fits_iff.mp (h (n + 1))
  obtain rfl : ds = es := Option.some.inj (hds.symm.trans hes)
  exact hall d hd

theorem Heap.Lasts.expand {d : Demand} (h : heap.Lasts d) :
    ∃ es, heap.expand d = some es ∧ ∀ e ∈ es, heap.Lasts e := by
  obtain ⟨t, ht, -⟩ := h 0
  have hat : ∀ n, t.ContainsAt heap n d.2 := by
    intro n
    obtain ⟨u, hu, hn⟩ := h n
    obtain rfl : t = u := Option.some.inj (ht.symm.trans hu)
    exact hn
  obtain ⟨es, hes, hlasts⟩ := TypeValue.exists_lasting hat
  exact ⟨es, Heap.expand_eq_some.mpr ⟨t, ht, hes⟩, hlasts⟩

/-- What holds to every depth passes the check, whatever has been met. -/
theorem Heap.meets_of_lasts (h : ∀ d ∈ ds, heap.Lasts d) : heap.meets met ds = true := by
  fun_induction Heap.meets heap met ds with
  | case1 => rfl
  | case2 met d rest hk ih =>
    obtain ⟨hd, hrest⟩ := List.forall_mem_cons.mp h
    obtain ⟨es, hes, -⟩ := hd.expand
    simp [hes, ih hrest]
  | case3 met d rest k hk hmem ih => exact ih (List.forall_mem_cons.mp h).2
  | case4 met d rest k hk hmem hnone =>
    obtain ⟨es, hes, -⟩ := (List.forall_mem_cons.mp h).1.expand
    simp [hes] at hnone
  | case5 met d rest k hk hmem es hes ih =>
    obtain ⟨hd, hrest⟩ := List.forall_mem_cons.mp h
    obtain ⟨es', hes', hlasts⟩ := hd.expand
    obtain rfl : es = es' := Option.some.inj (hes.symm.trans hes')
    exact ih (List.forall_mem_append.mpr ⟨hlasts, hrest⟩)

theorem Heap.meets_iff : heap.meets {} ds = true ↔ ∀ d ∈ ds, heap.Lasts d := by
  refine ⟨fun h d hd n => ?_, Heap.meets_of_lasts⟩
  obtain ⟨R, hR, hall⟩ := Heap.exists_respects h
  obtain ⟨t, ht, hfits⟩ := hR _ _ (hall d hd)
  exact ⟨t, ht, hR.containsAt n hfits⟩

theorem TypeValue.contains_of_containsAt (h : ∀ n, t.ContainsAt heap n x) :
    t.contains heap x = true := by
  obtain ⟨ds, hds, hlasts⟩ := TypeValue.exists_lasting h
  rw [TypeValue.contains_eq, hds]
  exact Heap.meets_of_lasts hlasts

end Failure

section Sharing

theorem Heap.meets_eq_all (ds : List Demand) :
    heap.meets {} ds = ds.all fun d => heap.meets {} [d] := by
  rw [Bool.eq_iff_iff, List.all_eq_true, Heap.meets_iff]
  simp only [Heap.meets_iff, List.forall_mem_singleton]

/-- Pairs that share what they have met hold just if each of them does alone. -/
theorem Heap.holds_allContain_eq_all (qs : List (Item × Option Item)) :
    (heap.allContain qs {}).holds =
      qs.all fun q => q.2.any fun x => (heap.typeContains (q.1, x) {}).holds := by
  rw [Heap.holds_allContain]
  simp only [Heap.holds_typeContains]
  induction qs with
  | nil => simp [demandsOf, Heap.meets]
  | cons q qs ih =>
    obtain ⟨type, x⟩ := q
    rw [demandsOf, List.all_cons, ← ih]
    cases x with
    | none => rfl
    | some x =>
      cases demandsOf qs with
      | none => exact (Bool.and_false _).symm
      | some ds =>
        have hall := heap.meets_eq_all ((type, x) :: ds)
        rwa [List.all_cons, ← Heap.meets_eq_all] at hall

end Sharing

/-- A type contains an item if no finite depth refutes it, and so exactly if some relation that
respects the rules says so. Demands that share what they have met are no easier than each of them
alone, in one list and from pair to pair. -/
theorem TypeValue.contains_iff_greatest (heap : Heap) (t : TypeValue) (x : Item) :
    (t.contains heap x = true ↔ ∀ n, t.ContainsAt heap n x) ∧
      (t.contains heap x = true ↔ ∃ R, heap.Respects R ∧ t.Fits heap R x) ∧
      (∀ ds, heap.meets {} ds = ds.all fun d => heap.meets {} [d]) ∧
      ∀ qs, (heap.allContain qs {}).holds =
        qs.all fun q => q.2.any fun y => (heap.typeContains (q.1, y) {}).holds := by
  have hdepth : (∃ R, heap.Respects R ∧ t.Fits heap R x) → ∀ n, t.ContainsAt heap n x := by
    rintro ⟨R, hR, hfits⟩ n
    exact hR.containsAt n hfits
  exact ⟨⟨fun h => hdepth (TypeValue.exists_respects h), TypeValue.contains_of_containsAt⟩,
    ⟨TypeValue.exists_respects, fun h => TypeValue.contains_of_containsAt (hdepth h)⟩,
    Heap.meets_eq_all, Heap.holds_allContain_eq_all⟩

end Comptime
