import Comptime.Membership

/-! The check of membership as a list of demands. A pair that holds leaves nothing behind but what
was met, and a failure fails the whole check, so the pairs that are still to be checked can wait in
one list for all pairs under test. -/
namespace Comptime

/-- One step for a demand. Only a type contains anything. -/
def Heap.expand (heap : Heap) (d : Demand) : Option (List Demand) :=
  (heap.type? d.1).bind fun t => t.demands heap d.2

section Steps

variable {heap : Heap} {t : TypeValue} {x : Item} {d : Demand} {ds : List Demand}

theorem TypeValue.demands_of_object_none (ho : heap.object? x = none)
    (h : t.demands heap x = some ds) : ds = [] := by
  unfold TypeValue.demands at h
  rw [ho] at h
  split at h <;> simp_all

theorem TypeValue.demands_elements {element : Item} {items : List Item}
    (hkind : t.kind = .listOf element) (ho : heap.object? x = some (.seq items)) :
    t.demands heap x = some (items.map (element, ·)) := by
  simp [TypeValue.demands, hkind, ho]

theorem TypeValue.demands_fields {features carried : List Item} {fields own : Fields}
    (hkind : t.kind = .object features fields) (ho : heap.object? x = some (.record carried own)) :
    t.demands heap x =
      if features.all (heap.hasFeature x) then fieldDemands own fields else none := by
  simp [TypeValue.demands, hkind, ho]

/-- Nothing but elements and fields is demanded. -/
theorem TypeValue.demands_eq_nil
    (hlist : ∀ element items, t.kind = .listOf element → heap.object? x = some (.seq items) → False)
    (hobject : ∀ features fields carried own, t.kind = .object features fields →
      heap.object? x = some (.record carried own) → False)
    (h : t.demands heap x = some ds) : ds = [] := by
  unfold TypeValue.demands at h
  split at h
  case h_8 => exact (hlist _ _ ‹_› ‹_›).elim
  case h_13 => exact (hobject _ _ _ _ ‹_› ‹_›).elim
  all_goals simp_all [provided]

theorem Heap.expand_of_type? (ht : heap.type? d.1 = some t) :
    heap.expand d = t.demands heap d.2 := by
  rw [Heap.expand, ht, Option.bind_some]

theorem Heap.expand_of_type?_none (ht : heap.type? d.1 = none) : heap.expand d = none := by
  rw [Heap.expand, ht, Option.bind_none]

theorem Heap.expand_eq_some :
    heap.expand d = some ds ↔ ∃ t, heap.type? d.1 = some t ∧ t.demands heap d.2 = some ds :=
  Option.bind_eq_some_iff

theorem Heap.expand_of_key?_none (hk : d.key? = none) (h : heap.expand d = some ds) : ds = [] := by
  obtain ⟨t, ht, hd⟩ := Heap.expand_eq_some.mp h
  exact TypeValue.demands_of_object_none (Demand.object?_of_key?_none hk ht) hd

theorem Heap.expand_key_lt {k : Handle × Handle} (hk : d.key? = some k)
    (h : heap.expand d = some ds) : ds = [] ∨ (k.1 < heap.size ∧ k.2 < heap.size) := by
  obtain rfl := Demand.eq_of_key? hk
  obtain ⟨t, ht, hd⟩ := Heap.expand_eq_some.mp h
  cases ho : heap.object? (.ref k.2) with
  | none => exact Or.inl (TypeValue.demands_of_object_none ho hd)
  | some o => exact Or.inr ⟨Heap.lt_of_type? ht, Heap.get?_lt ho⟩

end Steps

/-- Checks all demands. A pair met before is not checked again. -/
def Heap.meets (heap : Heap) : PairSet → List Demand → Bool
  | _, [] => true
  | met, d :: rest =>
    match _hk : d.key? with
    | none => (heap.expand d).isSome && heap.meets met rest
    | some k =>
      if k ∈ met then heap.meets met rest
      else
        match _he : heap.expand d with
        | none => false
        | some demands => heap.meets (met.insert k) (demands ++ rest)
termination_by met demands => (heap.unmet met, demands.length)
decreasing_by
  · simp [Prod.lex_def]
  · simp [Prod.lex_def]
  · rcases Heap.expand_key_lt _hk _he with rfl | hlt
    · have hle : heap.unmet (met.insert k) ≤ heap.unmet met := heap.unmet_mono (mem_insert_of_met k)
      simp only [Prod.lex_def, List.nil_append, List.length_cons]
      omega
    · exact Prod.Lex.left _ _ (heap.unmet_insert_lt ‹_› hlt.1 hlt.2)

namespace Heap

variable {heap : Heap} {met : PairSet} {d : Demand} {k : Handle × Handle}

theorem meets_of_key?_none (hk : d.key? = none) (rest : List Demand) :
    heap.meets met (d :: rest) = ((heap.expand d).isSome && heap.meets met rest) := by
  rw [meets]
  split
  · rfl
  · rename_i k hk'
    cases hk.symm.trans hk'

theorem meets_of_met (hk : d.key? = some k) (hm : k ∈ met) (rest : List Demand) :
    heap.meets met (d :: rest) = heap.meets met rest := by
  rw [meets]
  split
  · rename_i hk'
    cases hk.symm.trans hk'
  · rename_i j hj
    cases hk.symm.trans hj
    exact if_pos hm

theorem meets_of_not_met (hk : d.key? = some k) (hm : k ∉ met) (rest : List Demand) :
    heap.meets met (d :: rest) =
      (heap.expand d).elim false fun ds => heap.meets (met.insert k) (ds ++ rest) := by
  rw [meets]
  split
  · rename_i hk'
    cases hk.symm.trans hk'
  · rename_i j hj
    cases hk.symm.trans hj
    rw [if_neg hm]
    split <;> simp [*]

end Heap

section Verdicts

variable {heap : Heap} {met : PairSet}

/-- The verdict is what the list says of these demands, whatever comes after them, and the list goes
on with what was met. There are no demands where nothing can be met. -/
def Verdict.Agrees (heap : Heap) (v : Verdict met) (demands : Option (List Demand)) : Prop :=
  ∀ rest, (demands.elim false fun ds => heap.meets met (ds ++ rest)) =
    (v.holds && heap.meets v.seen rest)

/-- The demands of a list of pairs, unless an item is missing. -/
def demandsOf : List (Item × Option Item) → Option (List Demand)
  | [] => some []
  | (type, item) :: qs => do
    let value ← item
    let demands ← demandsOf qs
    some ((type, value) :: demands)

theorem demandsOf_elements (element : Item) (items : List Item) :
    demandsOf (items.map (element, some ·)) = some (items.map (element, ·)) := by
  induction items with
  | nil => rfl
  | cons x items ih => simp [demandsOf, ih]

theorem demandsOf_fields (own fields : Fields) :
    demandsOf (fields.map fun f => (f.2, own.lookup f.1)) = fieldDemands own fields := by
  induction fields with
  | nil => rfl
  | cons f fields ih => rw [List.map_cons, demandsOf, ih, fieldDemands]

/-- The recursion from pair to pair and the list of demands agree at each of their steps. -/
theorem verdicts_agree (heap : Heap) :
    (∀ t x met, (TypeValue.containsIn heap t x met).Agrees heap (t.demands heap x)) ∧
      (∀ qs met, (heap.allContain qs met).Agrees heap (demandsOf qs)) ∧
      ∀ d met, (heap.typeContains d met).Agrees heap (some [d]) := by
  refine TypeValue.containsIn.mutual_induct heap _ _ _ ?elements ?fields ?unfeatured ?flat ?nil
    ?missing ?fails ?holds ?noType ?noPair ?met ?metNoType ?unmet
  case elements =>
    intro t x met element items ho hkind ih
    rw [TypeValue.demands_elements hkind ho, ← demandsOf_elements, TypeValue.containsIn, ho, hkind]
    exact ih
  case fields =>
    intro t x met features fields carried own ho hkind hall ih
    rw [TypeValue.demands_fields hkind ho, if_pos hall, ← demandsOf_fields,
      TypeValue.containsIn, ho, hkind]
    simpa only [if_pos hall] using ih
  case unfeatured =>
    intro t x met features fields carried own ho hkind hall rest
    rw [TypeValue.demands_fields hkind ho, if_neg hall, TypeValue.containsIn, ho, hkind]
    simp only [if_neg hall]
    rfl
  case flat =>
    intro t x met hlist hobject
    have hverdict : t.containsIn heap x met = .ofBool met (t.demands heap x).isSome := by
      rw [TypeValue.containsIn]
      split
      · exact (hlist _ _ ‹_› ‹_›).elim
      · exact (hobject _ _ _ _ ‹_› ‹_›).elim
      · rfl
    rw [hverdict]
    cases hd : t.demands heap x with
    | none => exact fun _ => rfl
    | some ds =>
      obtain rfl := TypeValue.demands_eq_nil hlist hobject hd
      exact fun _ => rfl
  case nil =>
    intro met rest
    rw [Heap.allContain]
    rfl
  case missing =>
    intro met type qs rest
    rw [Heap.allContain]
    rfl
  case fails =>
    intro met type x qs seen keeps hv ih rest
    rw [hv] at ih
    rw [Heap.allContain, hv, demandsOf]
    cases demandsOf qs with
    | none => rfl
    | some ds => exact ih (ds ++ rest)
  case holds =>
    intro met type x qs seen keeps hv ih ihs rest
    rw [hv] at ih
    rw [Heap.allContain, hv, demandsOf]
    refine Eq.trans ?_ (ihs rest)
    cases demandsOf qs with
    | none => rfl
    | some ds => exact ih (ds ++ rest)
  case noType =>
    intro d met hk ht rest
    rw [Heap.typeContains, hk, ht, Option.elim_some, List.singleton_append,
      Heap.meets_of_key?_none hk, Heap.expand_of_type?_none ht]
    rfl
  case noPair =>
    intro d met hk t ht ih rest
    rw [Heap.typeContains, hk, ht, Option.elim_some, List.singleton_append,
      Heap.meets_of_key?_none hk]
    refine Eq.trans ?_ (ih rest)
    rw [← Heap.expand_of_type? ht]
    cases hd : heap.expand d with
    | none => rfl
    | some ds =>
      obtain rfl := Heap.expand_of_key?_none hk hd
      rfl
  case met =>
    intro d met k hk hm rest
    rw [Heap.typeContains, hk, Option.elim_some, List.singleton_append, Heap.meets_of_met hk hm]
    simp only [if_pos hm]
    rfl
  case metNoType =>
    intro d met k hk hm ht rest
    rw [Heap.typeContains, hk, ht, Option.elim_some, List.singleton_append,
      Heap.meets_of_not_met hk hm, Heap.expand_of_type?_none ht]
    simp only [if_neg hm]
    rfl
  case unmet =>
    intro d met k hk hm t ht ih rest
    rw [Heap.typeContains, hk, ht, Option.elim_some, List.singleton_append,
      Heap.meets_of_not_met hk hm, Heap.expand_of_type? ht]
    simp only [if_neg hm]
    exact ih rest

theorem Verdict.Agrees.holds {v : Verdict met} {demands : Option (List Demand)}
    (h : v.Agrees heap demands) : v.holds = demands.elim false (heap.meets met) := by
  have hend := h []
  simp only [List.append_nil, Heap.meets, Bool.and_true] at hend
  exact hend.symm

/-- A type contains an item if the item leads to demands that are met. -/
theorem TypeValue.contains_eq (heap : Heap) (t : TypeValue) (x : Item) :
    t.contains heap x = (t.demands heap x).elim false (heap.meets {}) :=
  ((verdicts_agree heap).1 t x {}).holds

theorem Heap.holds_allContain (heap : Heap) (qs : List (Item × Option Item)) :
    (heap.allContain qs {}).holds = (demandsOf qs).elim false (heap.meets {}) :=
  ((verdicts_agree heap).2.1 qs {}).holds

theorem Heap.holds_typeContains (heap : Heap) (d : Demand) :
    (heap.typeContains d {}).holds = heap.meets {} [d] :=
  ((verdicts_agree heap).2.2 d {}).holds

end Verdicts

end Comptime
