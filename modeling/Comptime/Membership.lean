import Comptime.Heap.Basic
import Comptime.Unvisited

/-! Which items a type contains. Types and values may be cyclic; an item belongs to a type unless
some finite path through both fails. -/
namespace Comptime

/-- A pair to be checked: the item of a type, and an item that should belong to it. -/
abbrev Demand := Item × Item

namespace Heap

/-- Whether the item is a record with a feature of this anchor. -/
def hasFeature (heap : Heap) (item anchor : Item) : Bool :=
  match heap.object? item with
  | some (.record features _) =>
    features.any fun feature =>
      match heap.object? feature with
      | some (.feature _ key _) => key.same anchor
      | _ => false
  | _ => false

end Heap

/-- The demands of fields, each on the field of the same name. -/
def fieldDemands (own : Fields) : Fields → Option (List Demand)
  | [] => some []
  | (name, type) :: rest => do
    let value ← own.lookup name
    let demands ← fieldDemands own rest
    some ((type, value) :: demands)

def provided (b : Bool) : Option (List Demand) := if b then some [] else none

/-- One step of membership: `none` if the item does not fit, else what is left to check. -/
def TypeValue.demands (heap : Heap) (t : TypeValue) (item : Item) : Option (List Demand) :=
  match t.kind, item, heap.object? item with
  | .missing, .absent _, _ => some []
  | .undef, .undefined, _ => some []
  | .null, .null, _ => some []
  | .bool, .bool _, _ => some []
  | .num, .num _, _ => some []
  | .str, .str _, _ => some []
  | .list, _, some (.seq _) => some []
  | .listOf element, _, some (.seq items) => some (items.map (element, ·))
  | .type, _, some (.type _) => some []
  | .anchor, _, some (.anchor _) => some []
  | .feature anchor, _, some (.feature _ key _) => provided (key.same anchor)
  | .feature anchor, _, some (.record ..) => provided (heap.hasFeature item anchor)
  | .object features fields, _, some (.record _ own) =>
    if features.all (heap.hasFeature item) then fieldDemands own fields else none
  | _, _, _ => none

/-- The pair of handles that identifies a demand between stored objects. -/
def Demand.key? (d : Demand) : Option (Handle × Handle) :=
  match d with
  | (.ref t, .ref v) => some (t, v)
  | _ => none

abbrev PairSet := Std.TreeSet (Handle × Handle) (compareLex (compareOn (·.1)) (compareOn (·.2)))

section Termination

/-- The pairs of stored objects not met yet. -/
def Heap.unmet (heap : Heap) (met : PairSet) : Nat :=
  ((List.range heap.size).flatMap fun t => (List.range heap.size).map (t, ·)).countP (· ∉ met)

variable {heap : Heap} {met more : PairSet} {d : Demand} {k : Handle × Handle}

theorem mem_insert_of_met (k : Handle × Handle) : ∀ j ∈ met, j ∈ met.insert k :=
  fun _ hj => Std.TreeSet.mem_insert.mpr (.inr hj)

theorem Heap.unmet_mono (h : ∀ k ∈ met, k ∈ more) : heap.unmet more ≤ heap.unmet met := by
  refine List.countP_mono_left fun k _ hk => ?_
  rw [decide_eq_true_eq] at hk ⊢
  exact fun hm => hk (h k hm)

theorem Heap.unmet_insert_lt (hk : k ∉ met) (ht : k.1 < heap.size) (hv : k.2 < heap.size) :
    heap.unmet (met.insert k) < heap.unmet met :=
  countP_lt_countP (fun x hx => by simp_all)
    (List.mem_flatMap.mpr ⟨k.1, by simp [ht], List.mem_map.mpr ⟨k.2, by simp [hv], rfl⟩⟩)
    (by simpa) (by simp [compareOn])

theorem Demand.eq_of_key? (h : d.key? = some k) : d = (.ref k.1, .ref k.2) := by
  obtain ⟨a, b⟩ := d
  cases a <;> cases b <;> simp_all [Demand.key?]
  simp [← h]

theorem Heap.lt_of_type? {h : Handle} {t : TypeValue} (ht : heap.type? (.ref h) = some t) :
    h < heap.size := by
  cases ho : heap.get? h with
  | none => simp [Heap.type?, Heap.object?, Item.ref?, ho] at ht
  | some o => exact Heap.get?_lt ho

/-- What is no object is no pair with a type. -/
theorem Demand.object?_of_key?_none {t : TypeValue} (hk : d.key? = none)
    (ht : heap.type? d.1 = some t) : heap.object? d.2 = none := by
  obtain ⟨a, x⟩ := d
  cases a with
  | ref h =>
    cases x with
    | ref k => cases hk
    | _ => rfl
  | _ => cases ht

end Termination

/-- What a check says, and the pairs met by then. None of those met before it is forgotten. -/
structure Verdict (met : PairSet) where
  holds : Bool
  seen : PairSet
  keeps : ∀ k ∈ met, k ∈ seen

def Verdict.ofBool (met : PairSet) (b : Bool) : Verdict met := ⟨b, met, fun _ hk => hk⟩

/-- The verdict of a check before which more pairs were met. -/
def Verdict.after {met more : PairSet} (h : ∀ k ∈ met, k ∈ more) (v : Verdict more) : Verdict met :=
  ⟨v.holds, v.seen, fun k hk => v.keeps k (h k hk)⟩

mutual

/-- Whether the item is a value of the type, if all pairs that were met hold. -/
def TypeValue.containsIn (heap : Heap) (t : TypeValue) (item : Item) (met : PairSet) :
    Verdict met :=
  match t.kind, _ho : heap.object? item with
  | .listOf element, some (.seq items) => heap.allContain (items.map (element, some ·)) met
  | .object features fields, some (.record _ own) =>
    if features.all (heap.hasFeature item) then
      heap.allContain (fields.map fun f => (f.2, own.lookup f.1)) met
    else .ofBool met false
  | _, _ => .ofBool met (t.demands heap item).isSome
termination_by (heap.unmet met, if (heap.object? item).isSome then 2 else 0, 0)
decreasing_by all_goals simp [Prod.lex_def, _ho]

/-- A pair that was met holds. Only a type contains anything. -/
def Heap.typeContains (heap : Heap) (d : Demand) (met : PairSet) : Verdict met :=
  match _hk : d.key? with
  | none =>
    match _ht : heap.type? d.1 with
    | none => .ofBool met false
    | some t => t.containsIn heap d.2 met
  | some k =>
    if k ∈ met then .ofBool met true
    else
      match _ht : heap.type? d.1 with
      | none => ⟨false, met.insert k, mem_insert_of_met k⟩
      | some t => .after (mem_insert_of_met k) (t.containsIn heap d.2 (met.insert k))
termination_by (heap.unmet met, 1, 0)
decreasing_by
  · simp [Prod.lex_def, Demand.object?_of_key?_none _hk _ht]
  · obtain rfl := Demand.eq_of_key? _hk
    cases ho : heap.object? (.ref k.2) with
    | none =>
      have hle : heap.unmet (met.insert k) ≤ heap.unmet met := heap.unmet_mono (mem_insert_of_met k)
      simp [Prod.lex_def]
      omega
    | some o =>
      exact Prod.Lex.left _ _ (heap.unmet_insert_lt ‹_› (heap.lt_of_type? _ht) (heap.get?_lt ho))

/-- Checks one pair after the other, up to the first that does not hold. What is missing does
not. -/
def Heap.allContain (heap : Heap) (qs : List (Item × Option Item)) (met : PairSet) : Verdict met :=
  match qs with
  | [] => .ofBool met true
  | (_, none) :: _ => .ofBool met false
  | (type, some item) :: rest =>
    match heap.typeContains (type, item) met with
    | ⟨false, seen, keeps⟩ => ⟨false, seen, keeps⟩
    | ⟨true, seen, keeps⟩ => .after keeps (heap.allContain rest seen)
termination_by (heap.unmet met, 1, qs.length)
decreasing_by
  · simp [Prod.lex_def]
  · have hle := heap.unmet_mono keeps
    simp [Prod.lex_def]
    omega

end

/-- Whether the item is a value of the type. -/
def TypeValue.contains (heap : Heap) (t : TypeValue) (item : Item) : Bool :=
  (t.containsIn heap item {}).holds

end Comptime
