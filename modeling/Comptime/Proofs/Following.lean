import Comptime.Context.Settle
import Mathlib.Logic.Relation

/-! Chains of placeholders. An item that reads as another, which may read as a third, leads to the
end of the chain, to a read that fails, or around in a circle; settling tells these apart. -/
namespace Comptime

open Relation

/-- Numbers that differ from themselves. -/
def Item.isNaN : Item → Bool
  | num x => x.isNaN
  | _ => false

theorem beq_self_float (x : Float) : (x == x) = !x.isNaN := by
  change x.toModel.unpack.beq x.toModel.unpack = !x.toModel.unpack.isNaN
  cases x.toModel.unpack with
  | notANumber | zero => rfl
  | infinity sign => cases sign <;> rfl
  | finite sign m e =>
    have hself : (compare e e).then (compare m m) = .eq := by simp
    cases sign with
    | negative => exact congrArg (fun o : Ordering => some o.swap == some .eq) hself
    | positive => exact congrArg (fun o : Ordering => some o == some .eq) hself

theorem Item.same_self (x : Item) : x.same x = !x.isNaN := by
  cases x with
  | num x => exact beq_self_float x
  | _ => simp [Item.same, Item.isNaN]

theorem Item.same_hole {x : Item} {p : Placeholder} : x.same (.hole p) ↔ x = .hole p := by
  cases x <;> simp [Item.same]

namespace Chain

variable {chain : Chain} {x y z : Item} {p q : Placeholder} {e : Fault}

/-- One read. -/
def Reads (chain : Chain) (x y : Item) : Prop :=
  ∃ p, x = .hole p ∧ read chain p = .resolved y

/-- There is nothing to read: the item is known, or has to wait. -/
def Rests (chain : Chain) (x : Item) : Prop :=
  ∀ p, x = .hole p → read chain p = .pending

/-- The reads from the first item on end at the second. -/
def Ends (chain : Chain) (x y : Item) : Prop :=
  ReflTransGen (Reads chain) x y ∧ Rests chain y

/-- One of the reads from the item on fails. -/
def Breaks (chain : Chain) (x : Item) (e : Fault) : Prop :=
  ∃ p, ReflTransGen (Reads chain) x (.hole p) ∧ read chain p = .failed e

/-- The reads from the item on come back to an item they passed. -/
def Loops (chain : Chain) (x : Item) : Prop :=
  ∃ y, ReflTransGen (Reads chain) x y ∧ TransGen (Reads chain) y y

theorem reads_hole : Reads chain (.hole p) y ↔ read chain p = .resolved y := by
  constructor
  · rintro ⟨_, ⟨⟩, h⟩
    exact h
  · exact fun h => ⟨p, rfl, h⟩

theorem reads_unique : Relator.RightUnique (Reads chain) := by
  rintro _ y z ⟨p, rfl, hy⟩ hz
  rw [reads_hole, hy] at hz
  cases hz
  rfl

/-- Where one read fails or has to wait, there is no other. -/
theorem not_reads_of_failed (h : read chain p = .failed e) : ¬Reads chain (.hole p) y := by
  rw [reads_hole, h]
  rintro ⟨⟩

theorem Rests.not_reads (h : Rests chain x) : ¬Reads chain x y := by
  rintro ⟨p, rfl, hp⟩
  rw [h p rfl] at hp
  cases hp

/-- All that an item leads to leads on to the item where the reads stop. -/
theorem reads_to_stop (hxy : ReflTransGen (Reads chain) x y) (hxz : ReflTransGen (Reads chain) x z)
    (hz : ∀ u, ¬Reads chain z u) : ReflTransGen (Reads chain) y z := by
  obtain h | h := ReflTransGen.total_of_right_unique reads_unique hxy hxz
  · exact h
  · obtain rfl | ⟨u, hu, -⟩ := ReflTransGen.cases_head h
    · exact .refl
    · exact absurd hu (hz u)

theorem stop_unique (hxy : ReflTransGen (Reads chain) x y) (hy : ∀ u, ¬Reads chain y u)
    (hxz : ReflTransGen (Reads chain) x z) (hz : ∀ u, ¬Reads chain z u) : y = z := by
  obtain rfl | ⟨u, hu, -⟩ := ReflTransGen.cases_head (reads_to_stop hxy hxz hz)
  · rfl
  · exact absurd hu (hy u)

/-- Reading on from an item of a circle stays in it. -/
theorem circle_of_circle (hx : TransGen (Reads chain) x x) (hxy : ReflTransGen (Reads chain) x y) :
    TransGen (Reads chain) y y := by
  induction hxy with
  | refl => exact hx
  | tail _ hstep ih =>
    obtain ⟨u, hu, hback⟩ := TransGen.head'_iff.mp ih
    obtain rfl := reads_unique hu hstep
    exact .tail' hback hstep

/-- Reads that stop do not loop. -/
theorem not_loops_of_stop (hxy : ReflTransGen (Reads chain) x y) (hy : ∀ u, ¬Reads chain y u) :
    ¬Loops chain x := by
  rintro ⟨z, hxz, hz⟩
  have hcircle := circle_of_circle hz (reads_to_stop hxz hxy hy)
  obtain ⟨u, hu, -⟩ := TransGen.head'_iff.mp hcircle
  exact hy u hu

theorem Ends.unique (hy : Ends chain x y) (hz : Ends chain x z) : y = z :=
  stop_unique hy.1 (fun _ => hy.2.not_reads) hz.1 (fun _ => hz.2.not_reads)

theorem Ends.not_breaks (hy : Ends chain x y) : ¬Breaks chain x e := by
  rintro ⟨p, hp, he⟩
  obtain rfl := stop_unique hy.1 (fun _ => hy.2.not_reads) hp fun _ => not_reads_of_failed he
  rw [hy.2 p rfl] at he
  cases he

theorem Ends.not_loops (hy : Ends chain x y) : ¬Loops chain x :=
  not_loops_of_stop hy.1 fun _ => hy.2.not_reads

theorem Breaks.unique {e' : Fault} (h : Breaks chain x e) (h' : Breaks chain x e') : e = e' := by
  obtain ⟨p, hp, he⟩ := h
  obtain ⟨q, hq, he'⟩ := h'
  have hpq := stop_unique hp (fun _ => not_reads_of_failed he) hq fun _ => not_reads_of_failed he'
  cases hpq
  rw [he] at he'
  cases he'
  rfl

theorem Breaks.not_loops (h : Breaks chain x e) : ¬Loops chain x := by
  obtain ⟨p, hp, he⟩ := h
  exact not_loops_of_stop hp fun _ => not_reads_of_failed he

theorem Ends.reads (h : Reads chain x y) (hy : Ends chain y z) : Ends chain x z :=
  ⟨.head h hy.1, hy.2⟩

theorem Ends.of_rests (hx : Rests chain x) : Ends chain x x := ⟨.refl, hx⟩

theorem rests_of_ne_hole (hx : ∀ p, x ≠ .hole p) : Rests chain x := fun p he => absurd he (hx p)

/-- How following a placeholder ends. -/
def Follows (chain : Chain) (start x : Item) : Except Fault Item → Prop
  | .ok y => Ends chain x y
  | .error e => Breaks chain x e ∨ (e = .selfReference start ∧ Loops chain x)

/-- The walk passes on how it ends. -/
theorem Follows.reads {start : Item} {r : Except Fault Item} (h : Reads chain x y)
    (hr : Follows chain start y r) : Follows chain start x r := by
  cases r with
  | ok z => exact Ends.reads h hr
  | error e =>
    obtain ⟨p, hp, he⟩ | ⟨rfl, z, hz, hloop⟩ := hr
    · exact .inl ⟨p, .head h hp, he⟩
    · exact .inr ⟨rfl, z, .head h hz, hloop⟩

/-- Following placeholders fails at one that was passed before, or at one that cannot be read. -/
theorem follow_error {start : Item} {seen : PlaceholderSet}
    (h : follow chain start seen p = .error e) :
    e = .selfReference start ∨ ∃ q, read chain q = .failed e := by
  fun_induction follow chain start seen p with
  | case1 =>
    cases h
    exact Or.inl rfl
  | case2 seen p hp q hr ih => exact ih h
  | case3 => cases h
  | case4 => cases h
  | case5 seen p hp e' hr =>
    cases h
    exact Or.inr ⟨p, hr⟩

/-- Following is right as long as what was seen leads to where it stands. -/
theorem follows_follow {start : Item} {seen : PlaceholderSet}
    (hs : ∀ q ∈ seen, TransGen (Reads chain) (.hole q) (.hole p)) :
    Follows chain start (.hole p) (follow chain start seen p) := by
  fun_induction follow chain start seen p with
  | case1 seen p hp => exact .inr ⟨rfl, .hole p, .refl, hs p hp⟩
  | case2 seen p hp q hq ih =>
    -- all that was seen leads to `p`, and by one read more to `q`
    have hstep : Reads chain (.hole p) (.hole q) := reads_hole.mpr hq
    refine Follows.reads hstep (ih fun r hr => ?_)
    rw [Std.TreeSet.mem_insert, Placeholder.compare_eq_eq] at hr
    obtain rfl | hr := hr
    · exact .single hstep
    · exact .tail (hs r hr) hstep
  | case3 seen p hp x hx hxp =>
    exact Ends.reads (reads_hole.mpr hxp) (.of_rests (rests_of_ne_hole hx))
  | case4 seen p hp hq =>
    refine Ends.of_rests ?_
    rintro _ ⟨⟩
    exact hq
  | case5 seen p hp e hq => exact .inl ⟨p, .refl, hq⟩

theorem follow_eq_ok_iff {start : Item} :
    follow chain start {} p = .ok y ↔ Ends chain (.hole p) y := by
  have hf : Follows chain start (.hole p) (follow chain start {} p) := follows_follow (by simp)
  cases hr : follow chain start {} p with
  | ok z =>
    rw [hr] at hf
    exact ⟨fun he => Except.ok.inj he ▸ hf, fun hy => congrArg Except.ok (Ends.unique hf hy)⟩
  | error e =>
    rw [hr] at hf
    refine iff_of_false (by rintro ⟨⟩) fun hy => ?_
    obtain hbreaks | ⟨-, hloops⟩ := hf
    · exact hy.not_breaks hbreaks
    · exact hy.not_loops hloops

theorem follow_eq_error_iff {start : Item} : follow chain start {} p = .error e ↔
    Breaks chain (.hole p) e ∨ (e = .selfReference start ∧ Loops chain (.hole p)) := by
  have hf : Follows chain start (.hole p) (follow chain start {} p) := follows_follow (by simp)
  cases hr : follow chain start {} p with
  | ok z =>
    rw [hr] at hf
    refine iff_of_false (by rintro ⟨⟩) ?_
    rintro (hbreaks | ⟨-, hloops⟩)
    · exact Ends.not_breaks hf hbreaks
    · exact Ends.not_loops hf hloops
  | error e' =>
    rw [hr] at hf
    refine ⟨fun he => Except.error.inj he ▸ hf, fun he => congrArg Except.error ?_⟩
    obtain hb' | ⟨rfl, hl'⟩ := hf <;> obtain hb | ⟨rfl, hl⟩ := he
    · exact hb'.unique hb
    · exact absurd hl hb'.not_loops
    · exact absurd hl' hb.not_loops
    · rfl

section Settle

theorem settle_known (hx : ∀ p, x ≠ .hole p) :
    settle chain x = .ok (if x.isNaN then some x else none) := by
  have hsettle : settle chain x = .ok (if x.same x then none else some x) := by
    cases x with
    | hole p => exact absurd rfl (hx p)
    | _ => rfl
  rw [hsettle, Item.same_self]
  cases x.isNaN <;> rfl

theorem settle_hole : settle chain (.hole p) =
    (follow chain (.hole p) {} p).map fun y => if y.same (.hole p) then none else some y := by
  change (follow chain (.hole p) {} p >>= fun y =>
    pure (if y.same (.hole p) then none else some y)) = _
  cases follow chain (.hole p) {} p <;> rfl

/-- A placeholder is the end of its own chain if it has to wait. -/
theorem ends_self_iff : Ends chain (.hole p) (.hole p) ↔ read chain p = .pending := by
  constructor
  · exact fun h => h.2 p rfl
  · intro h
    refine .of_rests ?_
    rintro _ ⟨⟩
    exact h

/-- Any other end comes after a first read. -/
theorem ends_of_ne (hne : y ≠ .hole p) :
    Ends chain (.hole p) y ↔ ∃ z, read chain p = .resolved z ∧ Ends chain z y := by
  constructor
  · rintro ⟨hreads, hrests⟩
    obtain rfl | ⟨z, hz, hzy⟩ := ReflTransGen.cases_head hreads
    · exact absurd rfl hne
    · exact ⟨z, reads_hole.mp hz, hzy, hrests⟩
  · rintro ⟨z, hz, hzy⟩
    exact Ends.reads (reads_hole.mpr hz) hzy

/-- A first read leads to another end. -/
theorem ne_of_reads (h : read chain p = .resolved z) (hy : Ends chain z y) : y ≠ .hole p := by
  rintro rfl
  rw [hy.2 p rfl] at h
  cases h

theorem settle_hole_eq_none_iff : settle chain (.hole p) = .ok none ↔ read chain p = .pending := by
  rw [← ends_self_iff, ← follow_eq_ok_iff, settle_hole]
  cases follow chain (.hole p) {} p with
  | error e => simp [Except.map]
  | ok y => simp [Except.map, Item.same_hole]

theorem settle_hole_eq_some_iff : settle chain (.hole p) = .ok (some y) ↔
    ∃ z, read chain p = .resolved z ∧ Ends chain z y := by
  have hsettle : settle chain (.hole p) = .ok (some y) ↔
      follow chain (.hole p) {} p = .ok y ∧ y ≠ .hole p := by
    rw [settle_hole]
    cases follow chain (.hole p) {} p with
    | error e => simp [Except.map]
    | ok z =>
      simp only [Except.map, Except.ok.injEq, Item.same_hole]
      split
      · rename_i hz
        refine iff_of_false (by rintro ⟨⟩) ?_
        rintro ⟨rfl, hne⟩
        exact hne (Item.same_hole.mp hz)
      · rename_i hz
        refine ⟨fun he => ?_, fun he => congrArg some he.1⟩
        cases he
        exact ⟨rfl, mt Item.same_hole.mpr hz⟩
  rw [hsettle, follow_eq_ok_iff]
  constructor
  · rintro ⟨hends, hne⟩
    exact (ends_of_ne hne).mp hends
  · rintro ⟨z, hz, hzy⟩
    have hne := ne_of_reads hz hzy
    exact ⟨(ends_of_ne hne).mpr ⟨z, hz, hzy⟩, hne⟩

theorem settle_hole_eq_error_iff : settle chain (.hole p) = .error e ↔
    Breaks chain (.hole p) e ∨ (e = .selfReference (.hole p) ∧ Loops chain (.hole p)) := by
  rw [← follow_eq_error_iff, settle_hole]
  cases follow chain (.hole p) {} p <;> simp [Except.map]

theorem rests_of_isNaN (hx : x.isNaN) : Rests chain x := by
  refine rests_of_ne_hole ?_
  rintro p rfl
  cases hx

theorem settle_eq_none_iff :
    settle chain x = .ok none ↔ Rests chain x ∧ x.isNaN = false := by
  by_cases hx : ∃ p, x = .hole p
  · obtain ⟨p, rfl⟩ := hx
    rw [settle_hole_eq_none_iff, ← ends_self_iff]
    exact ⟨fun h => ⟨h.2, rfl⟩, fun h => .of_rests h.1⟩
  · have hx := not_exists.mp hx
    rw [settle_known hx, and_iff_right (rests_of_ne_hole hx)]
    cases x.isNaN <;> simp

theorem settle_eq_some_iff : settle chain x = .ok (some y) ↔
    (∃ z, Reads chain x z ∧ Ends chain z y) ∨ (y = x ∧ x.isNaN) := by
  by_cases hx : ∃ p, x = .hole p
  · obtain ⟨p, rfl⟩ := hx
    simp only [settle_hole_eq_some_iff, reads_hole, Item.isNaN, Bool.false_eq_true, and_false,
      or_false]
  · have hx := not_exists.mp hx
    have hstays : ¬∃ z, Reads chain x z ∧ Ends chain z y := by
      rintro ⟨z, hz, -⟩
      exact (rests_of_ne_hole hx).not_reads hz
    rw [settle_known hx, or_iff_right hstays]
    cases x.isNaN <;> simp [eq_comm]

theorem settle_eq_error_iff : settle chain x = .error e ↔
    Breaks chain x e ∨ (e = .selfReference x ∧ Loops chain x) := by
  by_cases hx : ∃ p, x = .hole p
  · obtain ⟨p, rfl⟩ := hx
    exact settle_hole_eq_error_iff
  · have hx := not_exists.mp hx
    have hends : Ends chain x x := .of_rests (rests_of_ne_hole hx)
    rw [settle_known hx]
    refine iff_of_false (by rintro ⟨⟩) ?_
    rintro (hbreaks | ⟨-, hloops⟩)
    · exact hends.not_breaks hbreaks
    · exact hends.not_loops hloops

theorem settle_of_unsettled? (h : unsettled? chain x = none) :
    settle chain x = .ok (settled? chain x) := by
  unfold unsettled? at h
  unfold settled?
  cases hs : settle chain x with
  | ok r => rfl
  | error e => simp [hs] at h

/-- What stands in place of an item after it was settled. -/
def endOf (chain : Chain) (x : Item) : Item := (settled? chain x).getD x

theorem ends_endOf (h : unsettled? chain x = none) : Ends chain x (endOf chain x) := by
  have hsettle := settle_of_unsettled? h
  unfold endOf
  cases hr : settled? chain x with
  | none =>
    rw [hr, settle_eq_none_iff] at hsettle
    exact .of_rests hsettle.1
  | some y =>
    rw [hr, settle_eq_some_iff] at hsettle
    obtain ⟨z, hz, hzy⟩ | ⟨rfl, hnan⟩ := hsettle
    · exact Ends.reads hz hzy
    · exact .of_rests (rests_of_isNaN hnan)

/-- The items that settle are those whose chains have an end. -/
theorem unsettled?_eq_none_iff : unsettled? chain x = none ↔ ∃ y, Ends chain x y := by
  refine ⟨fun h => ⟨_, ends_endOf h⟩, ?_⟩
  rintro ⟨y, hy⟩
  unfold unsettled?
  cases hs : settle chain x with
  | ok r => rfl
  | error e =>
    obtain hbreaks | ⟨-, hloops⟩ := settle_eq_error_iff.mp hs
    · exact absurd hbreaks hy.not_breaks
    · exact absurd hloops hy.not_loops

theorem endOf_known (hx : ∀ p, x ≠ .hole p) : endOf chain x = x := by
  have hrests : Rests chain x := rests_of_ne_hole hx
  exact (ends_endOf (unsettled?_eq_none_iff.mpr ⟨x, .of_rests hrests⟩)).unique (.of_rests hrests)

/-- Whether the first read of an item gives another. -/
def advances (chain : Chain) : Item → Bool
  | .hole p =>
    match read chain p with
    | .resolved _ => true
    | _ => false
  | _ => false

theorem advances_iff : advances chain x ↔ ∃ z, Reads chain x z := by
  cases x with
  | hole p =>
    simp only [advances, reads_hole]
    cases read chain p <;> simp
  | _ => simp [advances, Reads]

theorem isSome_settled? (h : unsettled? chain x = none) :
    (settled? chain x).isSome = (advances chain x || x.isNaN) := by
  have hsettle := settle_of_unsettled? h
  cases hr : settled? chain x with
  | none =>
    rw [hr, settle_eq_none_iff] at hsettle
    have hstays : advances chain x = false := by
      rw [← Bool.not_eq_true, advances_iff]
      rintro ⟨z, hz⟩
      exact hsettle.1.not_reads hz
    rw [hstays, hsettle.2]
    rfl
  | some y =>
    rw [hr, settle_eq_some_iff] at hsettle
    obtain ⟨z, hz, -⟩ | ⟨-, hnan⟩ := hsettle
    · rw [advances_iff.mpr ⟨z, hz⟩]
      rfl
    · rw [hnan, Bool.or_true]
      rfl

end Settle

end Chain

end Comptime
