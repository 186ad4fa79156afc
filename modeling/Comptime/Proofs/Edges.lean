import Comptime.Proofs.Traversal
import Mathlib.Data.List.Nodup

/-! The references that are read while an object is built, and where they stand in its definition.
Each of them leads from the object through others without a binding to one with a binding. -/
namespace Comptime

section Fallible

variable {α β : Type}

theorem bind_eq_ok {x : Except Fault α} {f : α → Except Fault β} {b : β} :
    x >>= f = .ok b ↔ ∃ a, x = .ok a ∧ f a = .ok b := by
  cases x <;> simp [bind, Except.bind]

theorem pure_eq_ok {a b : α} : (pure a : Except Fault α) = .ok b ↔ a = b := by
  simp [pure, Except.pure]

theorem mapM_cons_eq_ok {f : α → Except Fault β} {a : α} {as : List α} {bs : List β} :
    (a :: as).mapM f = .ok bs ↔ ∃ b cs, f a = .ok b ∧ as.mapM f = .ok cs ∧ bs = b :: cs := by
  simp only [List.mapM_cons, bind_eq_ok, pure_eq_ok]
  constructor
  · rintro ⟨b, hb, cs, hcs, rfl⟩
    exact ⟨b, cs, hb, hcs, rfl⟩
  · rintro ⟨b, cs, hb, hcs, rfl⟩
    exact ⟨b, hb, cs, hcs, rfl⟩

theorem mapM_append_eq_ok {f : α → Except Fault β} {as bs : List α} {cs ds : List β}
    (ha : as.mapM f = .ok cs) (hb : bs.mapM f = .ok ds) : (as ++ bs).mapM f = .ok (cs ++ ds) := by
  rw [List.mapM_append, ha, hb]
  rfl

end Fallible

namespace Piece

/-- The path and the target of a reference. -/
def ref? : Piece → Option (String × Handle)
  | text _ => none
  | ref path h => some (path, h)

/-- The references of a definition, in order. -/
def refs (pieces : List Piece) : List (String × Handle) := pieces.filterMap ref?

@[simp]
theorem refs_nil : refs [] = [] := rfl

@[simp]
theorem refs_text (s : String) (ps : List Piece) : refs (text s :: ps) = refs ps := rfl

@[simp]
theorem refs_ref (path : String) (h : Handle) (ps : List Piece) :
    refs (ref path h :: ps) = (path, h) :: refs ps := rfl

@[simp]
theorem refs_append (ps qs : List Piece) : refs (ps ++ qs) = refs ps ++ refs qs :=
  List.filterMap_append

/-- The references of several parts, in order. -/
def refsAll (parts : List (List Piece)) : List (String × Handle) := parts.flatMap refs

@[simp]
theorem refsAll_nil : refsAll [] = [] := rfl

@[simp]
theorem refsAll_cons (part : List Piece) (parts : List (List Piece)) :
    refsAll (part :: parts) = refs part ++ refsAll parts := rfl

@[simp]
theorem refsAll_append (ps qs : List (List Piece)) :
    refsAll (ps ++ qs) = refsAll ps ++ refsAll qs :=
  List.flatMap_append

@[simp]
theorem refs_joined (parts : List (List Piece)) : refs (joined parts) = refsAll parts := by
  unfold joined
  induction parts with
  | nil => rfl
  | cons part parts ih =>
    cases parts with
    | nil => simp [List.intercalate]
    | cons next parts => simp_all [List.intercalate]

@[simp]
theorem refs_enclosed (left right : String) (parts : List (List Piece)) :
    refs (enclosed left right parts) = refsAll parts := by
  simp [enclosed]

@[simp]
theorem refs_bracketed (parts : List (List Piece)) : refs (bracketed parts) = refsAll parts :=
  refs_enclosed ..

@[simp]
theorem refs_braced (parts : List (List Piece)) : refs (braced parts) = refsAll parts := by
  unfold braced
  split
  · simp_all
  · simp

@[simp]
theorem refs_entry (key : String) (value : List Piece) : refs (entry key value) = refs value := rfl

end Piece

namespace Output

variable {out : Output}

section

variable {define : String → Handle → Except Fault (List Piece)} {path : String}

/-- The pieces hold the references of these children, in order. -/
def Holds (out : Output) (define : String → Handle → Except Fault (List Piece)) (path : String)
    (cs : List Child) (refs : List (String × Handle)) : Prop :=
  ∃ parts, out.children define path cs = .ok parts ∧ refs = Piece.refsAll parts

theorem holds_nil : out.Holds define path [] [] := ⟨[], rfl, rfl⟩

theorem Holds.append {cs ds : List Child} {rs ss : List (String × Handle)}
    (hc : out.Holds define path cs rs) (hd : out.Holds define path ds ss) :
    out.Holds define path (cs ++ ds) (rs ++ ss) := by
  obtain ⟨ps, hps, rfl⟩ := hc
  obtain ⟨qs, hqs, rfl⟩ := hd
  exact ⟨ps ++ qs, mapM_append_eq_ok hps hqs, by simp⟩

theorem holds_children {cs : List Child} {parts : List (List Piece)}
    (h : out.children define path cs = .ok parts) :
    out.Holds define path cs (Piece.refsAll parts) := ⟨parts, h, rfl⟩

theorem holds_child {c : Child} {ps : List Piece} (h : out.child define path c = .ok ps) :
    out.Holds define path [c] (Piece.refs ps) :=
  ⟨[ps], mapM_cons_eq_ok.mpr ⟨ps, [], h, rfl, rfl⟩, by simp⟩

theorem holds_entries {place : String → Place} {fields : Fields} {es : List (List Piece)}
    (h : out.entries define path place fields = .ok es) :
    out.Holds define path (named place fields) (Piece.refsAll es) := by
  induction fields generalizing es with
  | nil =>
    cases h
    exact holds_nil
  | cons f fields ih =>
    obtain ⟨e, rest, he, hrest, rfl⟩ := mapM_cons_eq_ok.mp h
    obtain ⟨value, hv, he⟩ := bind_eq_ok.mp he
    obtain rfl := pure_eq_ok.mp he
    exact (holds_child hv).append (ih hrest)

theorem holds_kindEntries {kind : TypeKind} {es : List (List Piece)}
    (h : out.kindEntries define path kind = .ok es) :
    out.Holds define path kind.children (Piece.refsAll es) := by
  unfold kindEntries at h
  cases kind with
  | listOf element | feature element =>
    obtain ⟨ps, hps, h⟩ := bind_eq_ok.mp h
    obtain rfl := pure_eq_ok.mp h
    simpa [TypeKind.children] using holds_child hps
  | object features fields =>
    obtain ⟨fs, hfs, h⟩ := bind_eq_ok.mp h
    obtain ⟨gs, hgs, h⟩ := bind_eq_ok.mp h
    obtain rfl := pure_eq_ok.mp h
    simpa [TypeKind.children] using (holds_children hfs).append (holds_entries hgs)
  | missing | undef | null | bool | num | str | list | type | anchor | generic =>
    obtain rfl := pure_eq_ok.mp h
    exact holds_nil

theorem holds_application {a : Application} {i : Nat} {ps : List Piece}
    (h : out.application define path a i = .ok ps) :
    out.Holds define path (indexed (.argument i) (a.args.getD [])) (Piece.refs ps) := by
  unfold application at h
  split at h
  · rename_i args hargs
    obtain ⟨parts, hparts, h⟩ := bind_eq_ok.mp h
    obtain rfl := pure_eq_ok.mp h
    simpa [hargs] using holds_children hparts
  · rename_i hargs
    obtain rfl := pure_eq_ok.mp h
    simpa [hargs, indexed] using holds_nil

theorem holds_applications {as : List (Application × Nat)} {parts : List (List Piece)}
    (h : as.mapM (fun p => out.application define path p.1 p.2) = .ok parts) :
    out.Holds define path
      (as.flatMap fun p => indexed (.argument p.2) (p.1.args.getD [])) (Piece.refsAll parts) := by
  induction as generalizing parts with
  | nil =>
    cases h
    exact holds_nil
  | cons a as ih =>
    obtain ⟨ps, rest, hps, hrest, rfl⟩ := mapM_cons_eq_ok.mp h
    simpa using (holds_application hps).append (ih hrest)

theorem holds_typeLiteral {t : TypeValue} {ps : List Piece}
    (h : out.typeLiteral define path t = .ok ps) :
    out.Holds define path (t.kind.children ++ t.arguments) (Piece.refs ps) := by
  obtain ⟨more, hmore, h⟩ := bind_eq_ok.mp h
  obtain ⟨args, hargs, h⟩ := bind_eq_ok.mp h
  obtain rfl := pure_eq_ok.mp h
  have := (holds_kindEntries hmore).append (holds_applications hargs)
  cases args <;> simpa [TypeValue.arguments] using this

theorem holds_recordLiteral {features : List Item} {fields : Fields} {ps : List Piece}
    (h : out.recordLiteral define path features fields = .ok ps) :
    out.Holds define path (indexed .feature features ++ named .field fields) (Piece.refs ps) := by
  obtain ⟨fs, hfs, h⟩ := bind_eq_ok.mp h
  obtain ⟨gs, hgs, h⟩ := bind_eq_ok.mp h
  obtain rfl := pure_eq_ok.mp h
  have := (holds_children hfs).append (holds_entries hgs)
  cases fs <;> simpa using this

theorem holds_featureLiteral {name : String} {key : Item} {fields : Fields} {ps : List Piece}
    (h : out.featureLiteral define path name key fields = .ok ps) :
    out.Holds define path ((.featureAnchor, key) :: named .featureField fields)
      (Piece.refs ps) := by
  obtain ⟨anchor, hanchor, h⟩ := bind_eq_ok.mp h
  obtain ⟨gs, hgs, h⟩ := bind_eq_ok.mp h
  obtain rfl := pure_eq_ok.mp h
  simpa using (holds_child hanchor).append (holds_entries hgs)

end

/-- From `h` the children at the positions `steps` lead to `target`, which has a binding, through
objects that have none. The places on the way are `path`, and none of them is deferred. -/
inductive Leads (out : Output) : Handle → List Nat → List Place → Handle → Prop
  | last {h target : Handle} {i : Nat} {place : Place} :
    (out.heap.children h)[i]? = some (place, .ref target) → place.isDeferred = false →
      out.tracker.isTracked target → Leads out h [i] [place] target
  | through {h mid target : Handle} {i : Nat} {place : Place} {steps : List Nat}
      {path : List Place} :
    (out.heap.children h)[i]? = some (place, .ref mid) → place.isDeferred = false →
      out.tracker.isTracked mid = false → Leads out mid steps path target →
        Leads out h (i :: steps) (place :: path) target

/-- The text that leads along the places from an object to one inside it. -/
def pathText : List Place → String
  | [] => ""
  | place :: path => place.accessor?.getD "" ++ pathText path

/-- A way from some object to one with a binding: positions, places and target. -/
abbrev Way := List Nat × List Place × Handle

def Way.ref (path : String) (w : Way) : String × Handle := (path ++ pathText w.2.1, w.2.2)

/-- The ways from an object that start with one of its children. -/
inductive LeadsVia (out : Output) : Child → Way → Prop
  | last {place : Place} {target : Handle} :
    place.isDeferred = false → out.tracker.isTracked target →
      LeadsVia out (place, .ref target) ([], [place], target)
  | through {place : Place} {mid target : Handle} {steps : List Nat} {path : List Place} :
    place.isDeferred = false → out.tracker.isTracked mid = false →
      out.Leads mid steps path target →
        LeadsVia out (place, .ref mid) (steps, place :: path, target)

theorem LeadsVia.not_isDeferred {c : Child} {w : Way} (hw : out.LeadsVia c w) :
    c.1.isDeferred = false := by
  cases hw <;> assumption

theorem leads_iff {h : Handle} {w : Way} :
    out.Leads h w.1 w.2.1 w.2.2 ↔
      ∃ i c steps, w.1 = i :: steps ∧ (out.heap.children h)[i]? = some c ∧
        out.LeadsVia c (steps, w.2) := by
  obtain ⟨steps, path, target⟩ := w
  constructor
  · intro hw
    cases hw with
    | last hc hd ht => exact ⟨_, _, _, rfl, hc, .last hd ht⟩
    | through hc hd ht hw => exact ⟨_, _, _, rfl, hc, .through hd ht hw⟩
  · rintro ⟨i, c, rest, rfl, hc, hw⟩
    cases hw with
    | last hd ht => exact .last hc hd ht
    | through hd ht hw => exact .through hc hd ht hw

/-- The list holds each way with the property once. -/
def Lists (p : Way → Prop) (ways : List Way) : Prop := ways.Nodup ∧ ∀ w, w ∈ ways ↔ p w

/-- The references of the definition of `h` at any path are its ways, in some order. -/
def Finds (out : Output) (define : String → Handle → Except Fault (List Piece)) : Prop :=
  ∀ path h ps, define path h = .ok ps →
    ∃ ways, Lists (fun w => out.Leads h w.1 w.2.1 w.2.2) ways ∧
      Piece.refs ps = ways.map (Way.ref path)

theorem finds_child {define : String → Handle → Except Fault (List Piece)} {path : String}
    {c : Child} {ps : List Piece} (hf : out.Finds define) (hd : c.1.isDeferred = false)
    (h : out.child define path c = .ok ps) :
    ∃ ways, Lists (out.LeadsVia c) ways ∧ Piece.refs ps = ways.map (Way.ref path) := by
  obtain ⟨place, x⟩ := c
  cases x with
  | ref u =>
    simp only [child] at h
    split at h
    · rename_i hu
      obtain rfl := pure_eq_ok.mp h
      refine ⟨[([], [place], u)], ⟨List.nodup_singleton _, fun w => ?_⟩,
        by simp [Way.ref, pathText]⟩
      rw [List.mem_singleton]
      constructor
      · rintro rfl
        exact .last hd hu
      · intro hw
        cases hw with
        | last _ _ => rfl
        | through _ hn _ => simp [hu] at hn
    · rename_i hu
      obtain ⟨ways, ⟨hnodup, hmem⟩, hrefs⟩ := hf _ _ _ h
      refine ⟨ways.map fun w => (w.1, place :: w.2.1, w.2.2), ⟨?_, fun w => ?_⟩, ?_⟩
      · refine hnodup.map fun v w hvw => ?_
        simp only [Prod.mk.injEq, List.cons.injEq, true_and] at hvw
        exact Prod.ext hvw.1 (Prod.ext hvw.2.1 hvw.2.2)
      · rw [List.mem_map]
        constructor
        · rintro ⟨v, hv, rfl⟩
          exact .through hd (by simpa using hu) ((hmem v).mp hv)
        · intro hw
          cases hw with
          | last _ ht => exact absurd ht hu
          | @through _ _ t steps path _ _ hw => exact ⟨(steps, path, t), (hmem _).mpr hw, rfl⟩
      · rw [hrefs, List.map_map]
        refine List.map_congr_left fun w _ => ?_
        simp [Way.ref, pathText, String.append_assoc]
  | undefined | null | bool | num | str | absent | hole =>
    obtain ⟨s, -, h⟩ := bind_eq_ok.mp h
    obtain rfl := pure_eq_ok.mp h
    refine ⟨[], ⟨List.nodup_nil, fun w => ?_⟩, rfl⟩
    constructor <;> intro hw <;> cases hw

/-- The positions of the children keep their ways apart. -/
theorem finds_children {define : String → Handle → Except Fault (List Piece)} {path : String}
    {cs : List Child} {parts : List (List Piece)} (hf : out.Finds define)
    (hd : ∀ c ∈ cs, c.1.isDeferred = false) (h : out.children define path cs = .ok parts)
    (n : Nat) :
    ∃ ways, Lists (fun w => ∃ i c steps, w.1 = (n + i) :: steps ∧ cs[i]? = some c ∧
        out.LeadsVia c (steps, w.2)) ways ∧ Piece.refsAll parts = ways.map (Way.ref path) := by
  induction cs generalizing parts n with
  | nil =>
    cases h
    exact ⟨[], ⟨List.nodup_nil, fun w => by simp⟩, rfl⟩
  | cons c cs ih =>
    obtain ⟨ps, rest, hps, hrest, rfl⟩ := mapM_cons_eq_ok.mp h
    obtain ⟨vs, ⟨hvs, hmemv⟩, hrefv⟩ := finds_child hf (hd c List.mem_cons_self) hps
    obtain ⟨ws, ⟨hws, hmemw⟩, hrefw⟩ :=
      ih (fun c hc => hd c (List.mem_cons_of_mem _ hc)) hrest (n + 1)
    refine ⟨vs.map (fun w => (n :: w.1, w.2)) ++ ws, ⟨?_, fun w => ?_⟩, ?_⟩
    · refine List.nodup_append.mpr ⟨hvs.map fun v w hvw => ?_, hws, fun v hv w hw hvw => ?_⟩
      · simp only [Prod.mk.injEq, List.cons.injEq, true_and] at hvw
        exact Prod.ext hvw.1 hvw.2
      · subst w
        obtain ⟨u, -, rfl⟩ := List.mem_map.mp hv
        obtain ⟨i, c, steps, hs, -⟩ := (hmemw _).mp hw
        have := (List.cons.inj hs).1
        omega
    · rw [List.mem_append, List.mem_map, hmemw]
      constructor
      · rintro (⟨v, hv, rfl⟩ | ⟨i, d, steps, hs, hd, hw⟩)
        · exact ⟨0, c, v.1, rfl, rfl, (hmemv v).mp hv⟩
        · exact ⟨i + 1, d, steps, by rw [hs, Nat.add_right_comm, Nat.add_assoc], hd, hw⟩
      · rintro ⟨i, d, steps, hs, hd, hw⟩
        cases i with
        | zero =>
          cases hd
          exact Or.inl ⟨(steps, w.2), (hmemv _).mpr hw, Prod.ext hs.symm rfl⟩
        | succ i =>
          exact Or.inr ⟨i, d, steps, by rw [hs, Nat.add_right_comm, Nat.add_assoc], hd, hw⟩
    · rw [Piece.refsAll_cons, hrefv, hrefw, List.map_append, List.map_map]
      rfl

theorem not_isDeferred_indexed {place : Nat → Place} (hp : ∀ i, (place i).isDeferred = false)
    {items : List Item} : ∀ c ∈ indexed place items, c.1.isDeferred = false := by
  intro c hc
  obtain ⟨p, -, rfl⟩ := List.mem_map.mp hc
  exact hp p.2

theorem not_isDeferred_named {place : String → Place} (hp : ∀ s, (place s).isDeferred = false)
    {fields : Fields} : ∀ c ∈ named place fields, c.1.isDeferred = false := by
  intro c hc
  obtain ⟨f, -, rfl⟩ := List.mem_map.mp hc
  exact hp f.1

theorem not_isDeferred_type (t : TypeValue) :
    ∀ c ∈ t.kind.children ++ t.arguments, c.1.isDeferred = false := by
  intro c hc
  rcases List.mem_append.mp hc with hc | hc
  · cases hk : t.kind <;> simp only [hk, TypeKind.children, List.mem_append, List.mem_singleton,
      List.not_mem_nil] at hc
    case listOf | feature => rw [hc]; rfl
    case object =>
      rcases hc with hc | hc
      · exact not_isDeferred_indexed (fun _ => rfl) c hc
      · exact not_isDeferred_named (fun _ => rfl) c hc
  · obtain ⟨p, -, hc⟩ := List.mem_flatMap.mp hc
    exact not_isDeferred_indexed (fun _ => rfl) c hc

/-- Only the children of functions are deferred. -/
theorem isDeferred_children (f : Closure) :
    ∀ c ∈ (Object.function f).children, c.1.isDeferred := by
  intro c hc
  rcases List.mem_append.mp hc with hc | hc
  · obtain ⟨g, -, rfl⟩ := List.mem_map.mp hc
    rfl
  · obtain ⟨p, -, rfl⟩ := List.mem_map.mp hc
    rfl

theorem Holds.finds {define : String → Handle → Except Fault (List Piece)} {path : String}
    {h : Handle} {o : Object} {refs : List (String × Handle)} (hf : out.Finds define)
    (ho : out.heap.get? h = some o) (hd : ∀ c ∈ o.children, c.1.isDeferred = false)
    (hh : out.Holds define path o.children refs) :
    ∃ ways, Lists (fun w => out.Leads h w.1 w.2.1 w.2.2) ways ∧
      refs = ways.map (Way.ref path) := by
  obtain ⟨parts, hparts, rfl⟩ := hh
  obtain ⟨ways, ⟨hnodup, hmem⟩, hrefs⟩ := finds_children hf hd hparts 0
  refine ⟨ways, ⟨hnodup, fun w => (hmem w).trans ?_⟩, hrefs⟩
  change _ ↔ out.Leads h w.1 w.2.1 w.2.2
  rw [leads_iff]
  simp [Heap.children, ho]

theorem lists_nil_of_deferred {h : Handle}
    (hd : ∀ c ∈ out.heap.children h, c.1.isDeferred) :
    Lists (fun w => out.Leads h w.1 w.2.1 w.2.2) [] := by
  refine ⟨List.nodup_nil, fun w => ?_⟩
  constructor
  · intro hw
    cases hw
  · intro hw
    obtain ⟨i, c, steps, -, hc, hw⟩ := leads_iff.mp hw
    have := hd c (List.mem_of_getElem? hc)
    simp [hw.not_isDeferred] at this

/-- A definition reads what its object leads to, at the paths that lead there. -/
theorem finds_defineWithin (depth : Nat) : out.Finds (out.defineWithin depth) := by
  induction depth with
  | zero =>
    intro path h ps hp
    cases hp
  | succ depth ih =>
    intro path h ps hp
    rw [defineWithin_succ_eq, defineWith] at hp
    split at hp
    case h_1 items ho =>
      obtain ⟨parts, hparts, hp⟩ := bind_eq_ok.mp hp
      obtain rfl := pure_eq_ok.mp hp
      rw [Piece.refs_bracketed]
      exact (holds_children hparts).finds ih ho (not_isDeferred_indexed fun _ => rfl)
    case h_2 f ho =>
      obtain ⟨s, -, hp⟩ := bind_eq_ok.mp hp
      obtain rfl := pure_eq_ok.mp hp
      refine ⟨[], lists_nil_of_deferred ?_, rfl⟩
      simpa [Heap.children, ho] using isDeferred_children f
    case h_3 t ho => exact (holds_typeLiteral hp).finds ih ho (not_isDeferred_type t)
    case h_4 name ho =>
      obtain rfl := pure_eq_ok.mp hp
      refine ⟨[], lists_nil_of_deferred ?_, rfl⟩
      simp [Heap.children, ho, Object.children]
    case h_5 name key fields ho =>
      refine (holds_featureLiteral hp).finds ih ho ?_
      exact List.forall_mem_cons.mpr ⟨rfl, not_isDeferred_named fun _ => rfl⟩
    case h_6 features fields ho =>
      refine (holds_recordLiteral hp).finds ih ho ?_
      exact List.forall_mem_append.mpr
        ⟨not_isDeferred_indexed fun _ => rfl, not_isDeferred_named fun _ => rfl⟩
    case h_7 => cases hp

end Output

end Comptime
