import Comptime.Proofs.Places
import Comptime.Proofs.Renaming.Replacement

/-! Replacing children. Setting the child at a place changes the first child that has the place, and
nothing else of the object. -/
namespace Comptime

variable {x : Item} {place : Place} {cs ds : List Child} {o o' : Object}

section First

/-- The children with a new item for the first one at the place. -/
def setFirst (x : Item) (place : Place) : List Child → List Child
  | [] => []
  | c :: cs => if c.1 = place then (c.1, x) :: cs else c :: setFirst x place cs

@[simp]
theorem map_fst_setFirst : (setFirst x place cs).map Prod.fst = cs.map Prod.fst := by
  induction cs with
  | nil => rfl
  | cons c cs ih =>
    rw [setFirst]
    split
    · rfl
    · rw [List.map_cons, List.map_cons, ih]

theorem setFirst_append_left (h : place ∈ cs.map Prod.fst) :
    setFirst x place (cs ++ ds) = setFirst x place cs ++ ds := by
  induction cs with
  | nil => cases h
  | cons c cs ih =>
    by_cases hc : c.1 = place
    · simp only [List.cons_append, setFirst, if_pos hc]
    · have hcs := (List.mem_cons.mp h).resolve_left (Ne.symm hc)
      simp only [List.cons_append, setFirst, if_neg hc, ih hcs]

theorem setFirst_append_right (h : place ∉ cs.map Prod.fst) :
    setFirst x place (cs ++ ds) = cs ++ setFirst x place ds := by
  induction cs with
  | nil => rfl
  | cons c cs ih =>
    rw [List.map_cons, List.mem_cons, not_or] at h
    rw [List.cons_append, setFirst, if_neg (Ne.symm h.1), ih h.2, List.cons_append]

theorem getElem?_setFirst (x : Item) (place : Place) (cs : List Child) (i : Nat) :
    (setFirst x place cs)[i]? = cs[i]?.map fun c =>
      if c.1 = place ∧ place ∉ (cs.map Prod.fst).take i then (c.1, x) else c := by
  induction cs generalizing i with
  | nil => rfl
  | cons c cs ih =>
    rw [setFirst]
    split
    · rename_i hc
      cases i with
      | zero => simp [hc]
      | succ i => simp [hc]
    · rename_i hc
      cases i with
      | zero => simp [hc]
      | succ i => simp [ih, Ne.symm hc]

/-- The second list is the first with a new item for its first child at the place. -/
structure SetsFirst (x : Item) (place : Place) (cs cs' : List Child) : Prop where
  mem : place ∈ cs.map Prod.fst
  eq : cs' = setFirst x place cs

theorem SetsFirst.append_right {cs' : List Child} (h : SetsFirst x place cs cs')
    (ds : List Child) : SetsFirst x place (cs ++ ds) (cs' ++ ds) where
  mem := by
    rw [List.map_append]
    exact List.mem_append_left _ h.mem
  eq := by rw [setFirst_append_left h.mem, h.eq]

theorem SetsFirst.append_left {ds' : List Child} (h : SetsFirst x place ds ds')
    (hn : place ∉ cs.map Prod.fst) : SetsFirst x place (cs ++ ds) (cs ++ ds') where
  mem := by
    rw [List.map_append]
    exact List.mem_append_right _ h.mem
  eq := by rw [setFirst_append_right hn, h.eq]

variable {slot : Nat → Place} {label : String → Place} {items items' : List Item} {i : Nat}
  {fields fields' : Fields} {name : String}

theorem getElem?_indexed (j : Nat) : (indexed slot items)[j]? = items[j]?.map (slot j, ·) := by
  simp [indexed, Function.comp_def]

theorem mem_places_indexed :
    place ∈ (indexed slot items).map Prod.fst ↔ ∃ i < items.length, place = slot i := by
  simp [map_fst_indexed, eq_comm]

theorem mem_places_named :
    place ∈ (named label fields).map Prod.fst ↔
      ∃ name ∈ fields.map Prod.fst, place = label name := by
  rw [map_fst_named, List.mem_map]
  simp only [eq_comm]

theorem setNth?_eq_some_iff :
    setNth? items i x = some items' ↔ i < items.length ∧ items' = items.set i x := by
  unfold setNth?
  split
  · rename_i hlt
    simp [hlt, eq_comm]
  · rename_i hge
    simp [hge]

theorem indexed_set (hs : Function.Injective slot) (items : List Item) (i : Nat) (x : Item) :
    indexed slot (items.set i x) = setFirst x (slot i) (indexed slot items) := by
  have hbefore : slot i ∉ ((indexed slot items).map Prod.fst).take i := by
    rw [map_fst_indexed, ← List.map_take, List.mem_map]
    rintro ⟨k, hk, he⟩
    rw [hs he, List.take_range] at hk
    have := List.mem_range.mp hk
    omega
  refine List.ext_getElem? fun j => ?_
  rw [getElem?_setFirst, getElem?_indexed, getElem?_indexed, List.getElem?_set]
  by_cases hij : i = j
  · subst hij
    by_cases hlt : i < items.length
    · simp [hlt, hbefore]
    · simp [hlt]
  · have hne : ¬slot j = slot i := fun he => hij (hs he).symm
    simp [hij, hne, Function.comp_def]

theorem setsFirst_indexed (hs : Function.Injective slot) (h : setNth? items i x = some items') :
    SetsFirst x (slot i) (indexed slot items) (indexed slot items') := by
  obtain ⟨hlt, rfl⟩ := setNth?_eq_some_iff.mp h
  exact ⟨mem_places_indexed.mpr ⟨i, hlt, rfl⟩, indexed_set hs items i x⟩

theorem setsFirst_named (hl : Function.Injective label)
    (h : setNamed? x name fields = some fields') :
    SetsFirst x (label name) (named label fields) (named label fields') := by
  induction fields generalizing fields' with
  | nil => cases h
  | cons f fields ih =>
    rw [setNamed?] at h
    split at h
    · rename_i hf
      cases h
      refine ⟨mem_places_named.mpr ⟨name, by simp [hf], rfl⟩, ?_⟩
      simp [named, setFirst, hf]
    · rename_i hf
      obtain ⟨rest, hrest, rfl⟩ := Option.map_eq_some_iff.mp h
      change SetsFirst x _ ([(label f.1, f.2)] ++ named label fields)
        ([(label f.1, f.2)] ++ named label rest)
      refine (ih hrest).append_left ?_
      rw [List.map_singleton, List.mem_singleton]
      exact fun he => hf (hl he).symm

theorem exists_setNamed? (h : name ∈ fields.map Prod.fst) :
    ∃ fields', setNamed? x name fields = some fields' := by
  induction fields with
  | nil => cases h
  | cons f fields ih =>
    rw [setNamed?]
    split
    · exact ⟨_, rfl⟩
    · rename_i hf
      obtain ⟨rest, hrest⟩ := ih ((List.mem_cons.mp h).resolve_left (Ne.symm hf))
      exact ⟨f :: rest, by rw [hrest]; rfl⟩

end First

section Shapes

mutual

theorem Code.mapItems_setItem (y : Item) (c : Code) (n : Nat) :
    (c.setItem x n).mapItems (fun _ => y) = c.mapItems fun _ => y := by
  cases c with
  | lit z =>
    simp only [Code.setItem]
    split <;> rfl
  | comptime | ident => rfl
  | call c args =>
    simp only [Code.setItem]
    split <;> simp [Code.mapItems, Code.mapItems_setItem y c, Code.mapItemsAll_setItemAll y args]
  | member o name => simp [Code.setItem, Code.mapItems, Code.mapItems_setItem y o]
  | index o k =>
    simp only [Code.setItem]
    split <;> simp [Code.mapItems, Code.mapItems_setItem y o, Code.mapItems_setItem y k]
  | array es => simp [Code.setItem, Code.mapItems, Code.mapItemsAll_setItemAll y es]
  | binary op a b =>
    simp only [Code.setItem]
    split <;> simp [Code.mapItems, Code.mapItems_setItem y a, Code.mapItems_setItem y b]
  | lambda params body => simp [Code.setItem, Code.mapItems, Stmt.mapItemsAll_setItemAll y body]

theorem Code.mapItemsAll_setItemAll (y : Item) (cs : List Code) (n : Nat) :
    Code.mapItemsAll (fun _ => y) (Code.setItemAll x cs n) = Code.mapItemsAll (fun _ => y) cs := by
  cases cs with
  | nil => rfl
  | cons c cs =>
    simp only [Code.setItemAll]
    split <;>
      simp [Code.mapItemsAll, Code.mapItems_setItem y c, Code.mapItemsAll_setItemAll y cs]

theorem Stmt.mapItems_setItem (y : Item) (s : Stmt) (n : Nat) :
    (s.setItem x n).mapItems (fun _ => y) = s.mapItems fun _ => y := by
  cases s with
  | letBind _ c | exportConst _ c | expr c | ret c =>
    simp [Stmt.setItem, Stmt.mapItems, Code.mapItems_setItem y c]
  | retVoid => rfl

theorem Stmt.mapItemsAll_setItemAll (y : Item) (ss : List Stmt) (n : Nat) :
    Stmt.mapItemsAll (fun _ => y) (Stmt.setItemAll x ss n) = Stmt.mapItemsAll (fun _ => y) ss := by
  cases ss with
  | nil => rfl
  | cons s ss =>
    simp only [Stmt.setItemAll]
    split <;>
      simp [Stmt.mapItemsAll, Stmt.mapItems_setItem y s, Stmt.mapItemsAll_setItemAll y ss]

end

/-- Items without their contents. -/
def blanks (items : List Item) : List Item := items.map fun _ => .undefined

/-- Named items without their contents. -/
def Fields.blank (fields : Fields) : Fields := fields.map fun f => (f.1, .undefined)

def TypeKind.shape : TypeKind → TypeKind
  | .listOf _ => .listOf .undefined
  | .feature _ => .feature .undefined
  | .object features fields => .object (blanks features) fields.blank
  | kind => kind

def Application.shape (a : Application) : Application := { a with args := a.args.map blanks }

/-- What an object is apart from its children: its kind, its names and parameters, its generics,
and the form of its code. -/
def Object.shape : Object → Object
  | seq items => seq (blanks items)
  | function f =>
    function ⟨f.name, f.params, Stmt.mapItemsAll (fun _ => .undefined) f.body, f.captures.blank⟩
  | type t => type ⟨t.kind.shape, t.applications.map Application.shape⟩
  | anchor name => anchor name
  | feature name _ fields => feature name .undefined fields.blank
  | record features fields => record (blanks features) fields.blank

theorem blanks_set (items : List Item) (i : Nat) : blanks (items.set i x) = blanks items := by
  refine List.ext_getElem? fun j => ?_
  simp only [blanks, List.getElem?_map, List.getElem?_set]
  split
  · rename_i hij
    subst hij
    split <;> simp_all
  · rfl

theorem blanks_setNth? {items items' : List Item} {i : Nat}
    (h : setNth? items i x = some items') : blanks items' = blanks items := by
  obtain ⟨-, rfl⟩ := setNth?_eq_some_iff.mp h
  exact blanks_set items i

theorem Fields.blank_setNamed? {fields fields' : Fields} {name : String}
    (h : setNamed? x name fields = some fields') : fields'.blank = fields.blank := by
  induction fields generalizing fields' with
  | nil => cases h
  | cons f fields ih =>
    rw [setNamed?] at h
    split at h
    · cases h
      rfl
    · obtain ⟨rest, hrest, rfl⟩ := Option.map_eq_some_iff.mp h
      exact congrArg ((f.1, Item.undefined) :: ·) (ih hrest)

end Shapes

section Types

variable {as : List Application} {a a' : Application} {t t' : TypeValue} {k k' : TypeKind}

/-- The arguments of the applications from the `n`-th on. -/
def argumentsFrom (n : Nat) (as : List Application) : List Child :=
  (as.zipIdx n).flatMap fun p => indexed (.argument p.2) (p.1.args.getD [])

theorem argumentsFrom_cons (n : Nat) (a : Application) (as : List Application) :
    argumentsFrom n (a :: as) =
      indexed (.argument n) (a.args.getD []) ++ argumentsFrom (n + 1) as := rfl

theorem Application.setArgument?_eq_some_iff {i : Nat} : a.setArgument? x i = some a' ↔
    ∃ args, a.args = some args ∧ i < args.length ∧ a' = ⟨a.site, some (args.set i x)⟩ := by
  unfold Application.setArgument?
  cases a.args with
  | none => simp
  | some args =>
    simp only [Option.bind_eq_bind, Option.bind_some, Option.bind_eq_some_iff,
      setNth?_eq_some_iff, Option.some.injEq, exists_eq_left']
    constructor
    · rintro ⟨_, ⟨hlt, rfl⟩, rfl⟩
      exact ⟨hlt, rfl⟩
    · rintro ⟨hlt, rfl⟩
      exact ⟨_, ⟨hlt, rfl⟩, rfl⟩

theorem setsFirst_argumentsFrom {entry i : Nat} (n : Nat) (ha : as[entry]? = some a)
    (hset : a.setArgument? x i = some a') :
    SetsFirst x (.argument (n + entry) i) (argumentsFrom n as)
      (argumentsFrom n (as.set entry a')) := by
  obtain ⟨args, hargs, hlt, rfl⟩ := Application.setArgument?_eq_some_iff.mp hset
  induction as generalizing n entry with
  | nil => cases ha
  | cons b as ih =>
    cases entry with
    | zero =>
      cases ha
      have hset : setNth? args i x = some (args.set i x) := setNth?_eq_some_iff.mpr ⟨hlt, rfl⟩
      rw [List.set_cons_zero, argumentsFrom_cons, argumentsFrom_cons, hargs]
      exact (setsFirst_indexed (fun _ _ he => (Place.argument.inj he).2) hset).append_right _
    | succ entry =>
      rw [List.set_cons_succ, argumentsFrom_cons, argumentsFrom_cons, Nat.add_comm entry 1,
        ← Nat.add_assoc]
      refine (ih (n + 1) ha).append_left ?_
      rw [mem_places_indexed]
      rintro ⟨j, -, he⟩
      have := (Place.argument.inj he).1
      omega

theorem mem_places_argumentsFrom {n : Nat} :
    place ∈ (argumentsFrom n as).map Prod.fst ↔
      ∃ entry i a args, as[entry]? = some a ∧ a.args = some args ∧ i < args.length ∧
        place = .argument (n + entry) i := by
  induction as generalizing n with
  | nil => simp [argumentsFrom]
  | cons b as ih =>
    rw [argumentsFrom_cons, List.map_append, List.mem_append, ih, mem_places_indexed]
    constructor
    · rintro (⟨i, hi, rfl⟩ | ⟨entry, i, a, args, ha, hargs, hi, rfl⟩)
      · cases hargs : b.args with
        | none => simp [hargs] at hi
        | some args => exact ⟨0, i, b, args, rfl, hargs, by simpa [hargs] using hi, rfl⟩
      · exact ⟨entry + 1, i, a, args, ha, hargs, hi, by rw [Nat.add_assoc, Nat.add_comm 1]⟩
    · rintro ⟨entry, i, a, args, ha, hargs, hi, rfl⟩
      cases entry with
      | zero =>
        cases ha
        exact .inl ⟨i, by simpa [hargs] using hi, rfl⟩
      | succ entry =>
        exact .inr ⟨entry, i, a, args, ha, hargs, hi, by rw [Nat.add_assoc, Nat.add_comm 1]⟩

theorem TypeKind.setChild?_eq_some (h : k.setChild? x place = some k') :
    SetsFirst x place k.children k'.children ∧ k'.shape = k.shape := by
  unfold TypeKind.setChild? at h
  split at h
  · cases h
    exact ⟨⟨List.mem_singleton_self _, rfl⟩, rfl⟩
  · cases h
    exact ⟨⟨List.mem_singleton_self _, rfl⟩, rfl⟩
  · obtain ⟨features, hset, rfl⟩ := Option.map_eq_some_iff.mp h
    refine ⟨(setsFirst_indexed (fun _ _ => Place.typeFeature.inj) hset).append_right _, ?_⟩
    rw [TypeKind.shape, TypeKind.shape, blanks_setNth? hset]
  · obtain ⟨fields, hset, rfl⟩ := Option.map_eq_some_iff.mp h
    refine ⟨(setsFirst_named (fun _ _ => Place.typeField.inj) hset).append_left ?_, ?_⟩
    · simp [map_fst_indexed]
    · rw [TypeKind.shape, TypeKind.shape, Fields.blank_setNamed? hset]
  · cases h

theorem TypeKind.exists_setChild? (x : Item) (h : place ∈ k.children.map Prod.fst) :
    ∃ k', k.setChild? x place = some k' := by
  cases k with
  | listOf | feature =>
    cases List.mem_singleton.mp h
    exact ⟨_, rfl⟩
  | object features fields =>
    rw [TypeKind.children, List.map_append, List.mem_append, mem_places_indexed,
      mem_places_named] at h
    obtain ⟨i, hlt, rfl⟩ | ⟨name, hname, rfl⟩ := h
    · exact ⟨_, congrArg (Option.map _) (setNth?_eq_some_iff.mpr ⟨hlt, rfl⟩)⟩
    · obtain ⟨fields', hset⟩ := exists_setNamed? (x := x) hname
      exact ⟨_, congrArg (Option.map _) hset⟩
  | _ => cases h

/-- Places other than those of arguments are set in the kind of a type. -/
theorem TypeValue.setChild?_kind (hp : ∀ entry i, place ≠ .argument entry i) :
    t.setChild? x place = (t.kind.setChild? x place).map fun kind => { t with kind } := by
  unfold TypeValue.setChild?
  split
  · exact absurd rfl (hp _ _)
  · cases t.kind.setChild? x place <;> rfl

theorem TypeValue.setChild?_eq_some (h : t.setChild? x place = some t') :
    SetsFirst x place (Object.type t).children (Object.type t').children ∧
      (Object.type t').shape = (Object.type t).shape := by
  cases place with
  | argument entry i =>
    obtain ⟨a, ha, h⟩ := Option.bind_eq_some_iff.mp h
    obtain ⟨a', hset, h⟩ := Option.bind_eq_some_iff.mp h
    cases h
    have hfirst := setsFirst_argumentsFrom 0 ha hset
    rw [Nat.zero_add] at hfirst
    refine ⟨hfirst.append_left ?_, ?_⟩
    · cases t.kind <;> simp [TypeKind.children, map_fst_indexed, map_fst_named]
    · obtain ⟨args, hargs, -, rfl⟩ := Application.setArgument?_eq_some_iff.mp hset
      have hshape : Application.shape ⟨a.site, some (args.set i x)⟩ = a.shape := by
        simp [Application.shape, hargs, blanks_set]
      obtain ⟨hlt, rfl⟩ := List.getElem?_eq_some_iff.mp ha
      rw [Object.shape, Object.shape, List.map_set, hshape,
        ← List.getElem_map Application.shape (h := by simpa using hlt), List.set_getElem_self]
  | _ =>
    rw [TypeValue.setChild?_kind (by simp)] at h
    obtain ⟨kind, hset, rfl⟩ := Option.map_eq_some_iff.mp h
    obtain ⟨hfirst, hshape⟩ := TypeKind.setChild?_eq_some hset
    exact ⟨hfirst.append_right _, by rw [Object.shape, Object.shape, hshape]⟩

theorem TypeValue.exists_setChild? (x : Item)
    (h : place ∈ (Object.type t).children.map Prod.fst) :
    ∃ t', t.setChild? x place = some t' := by
  rw [Object.children, List.map_append, List.mem_append] at h
  obtain h | h := h
  · have hp : ∀ entry i, place ≠ .argument entry i := by
      rintro entry i rfl
      cases hk : t.kind <;> simp [hk, TypeKind.children, map_fst_indexed, map_fst_named] at h
    obtain ⟨kind, hkind⟩ := TypeKind.exists_setChild? x h
    exact ⟨_, by rw [TypeValue.setChild?_kind hp, hkind, Option.map_some]⟩
  · obtain ⟨entry, i, a, args, ha, hargs, hlt, rfl⟩ := mem_places_argumentsFrom.mp h
    rw [Nat.zero_add]
    have hset : a.setArgument? x i = some ⟨a.site, some (args.set i x)⟩ :=
      Application.setArgument?_eq_some_iff.mpr ⟨args, hargs, hlt, rfl⟩
    exact ⟨_, Option.bind_eq_some_iff.mpr ⟨a, ha, Option.bind_eq_some_iff.mpr ⟨_, hset, rfl⟩⟩⟩

end Types

section Objects

/-- Setting a child changes the first child at the place, and nothing else of the object. -/
theorem Object.setChild?_eq_some (h : o.setChild? x place = some o') :
    SetsFirst x place o.children o'.children ∧ o'.shape = o.shape := by
  unfold Object.setChild? at h
  split at h
  · obtain ⟨items, hset, rfl⟩ := Option.map_eq_some_iff.mp h
    refine ⟨setsFirst_indexed (fun _ _ => Place.index.inj) hset, ?_⟩
    rw [Object.shape, Object.shape, blanks_setNth? hset]
  · obtain ⟨features, hset, rfl⟩ := Option.map_eq_some_iff.mp h
    refine ⟨(setsFirst_indexed (fun _ _ => Place.feature.inj) hset).append_right _, ?_⟩
    rw [Object.shape, Object.shape, blanks_setNth? hset]
  · obtain ⟨fields, hset, rfl⟩ := Option.map_eq_some_iff.mp h
    refine ⟨(setsFirst_named (fun _ _ => Place.field.inj) hset).append_left ?_, ?_⟩
    · simp [map_fst_indexed]
    · rw [Object.shape, Object.shape, Fields.blank_setNamed? hset]
  · cases h
    exact ⟨⟨List.mem_cons_self, rfl⟩, rfl⟩
  · rename_i name key fields f
    obtain ⟨fields', hset, rfl⟩ := Option.map_eq_some_iff.mp h
    constructor
    · change SetsFirst x _ ([(.featureAnchor, key)] ++ named .featureField fields)
        ([(.featureAnchor, key)] ++ named .featureField fields')
      refine (setsFirst_named (fun _ _ => Place.featureField.inj) hset).append_left ?_
      simp
    · rw [Object.shape, Object.shape, Fields.blank_setNamed? hset]
  · obtain ⟨captures, hset, h⟩ := Option.bind_eq_some_iff.mp h
    cases h
    refine ⟨(setsFirst_named (fun _ _ => Place.capture.inj) hset).append_right _, ?_⟩
    rw [Object.shape, Object.shape, Fields.blank_setNamed? hset]
  · rename_i f i
    split at h
    · rename_i hlt
      cases h
      have hset := setNth?_eq_some_iff.mpr ⟨hlt, Stmt.itemsAll_setItemAll x f.body i⟩
      refine ⟨(setsFirst_indexed (fun _ _ => Place.bodyItem.inj) hset).append_left ?_, ?_⟩
      · simp [map_fst_named]
      · rw [Object.shape, Object.shape, Stmt.mapItemsAll_setItemAll]
    · cases h
  · obtain ⟨t, hset, rfl⟩ := Option.map_eq_some_iff.mp h
    exact TypeValue.setChild?_eq_some hset
  · cases h

/-- Every place of an object can be set. -/
theorem Object.exists_setChild? (x : Item) (h : place ∈ o.children.map Prod.fst) :
    ∃ o', o.setChild? x place = some o' := by
  cases o with
  | seq items =>
    obtain ⟨i, hlt, rfl⟩ := mem_places_indexed.mp h
    exact ⟨_, congrArg (Option.map _) (setNth?_eq_some_iff.mpr ⟨hlt, rfl⟩)⟩
  | function f =>
    rw [Object.children, List.map_append, List.mem_append, mem_places_indexed,
      mem_places_named] at h
    obtain ⟨name, hname, rfl⟩ | ⟨i, hlt, rfl⟩ := h
    · obtain ⟨captures, hset⟩ := exists_setNamed? (x := x) hname
      exact ⟨_, Option.bind_eq_some_iff.mpr ⟨captures, hset, rfl⟩⟩
    · exact ⟨_, if_pos hlt⟩
  | type t =>
    obtain ⟨t', ht⟩ := TypeValue.exists_setChild? x h
    exact ⟨.type t', congrArg (Option.map _) ht⟩
  | anchor name => cases h
  | feature name key fields =>
    rw [Object.children, List.map_cons, List.mem_cons, mem_places_named] at h
    obtain rfl | ⟨f, hf, rfl⟩ := h
    · exact ⟨_, rfl⟩
    · obtain ⟨fields', hset⟩ := exists_setNamed? (x := x) hf
      exact ⟨_, congrArg (Option.map _) hset⟩
  | record features fields =>
    rw [Object.children, List.map_append, List.mem_append, mem_places_indexed,
      mem_places_named] at h
    obtain ⟨i, hlt, rfl⟩ | ⟨name, hname, rfl⟩ := h
    · exact ⟨_, congrArg (Option.map _) (setNth?_eq_some_iff.mpr ⟨hlt, rfl⟩)⟩
    · obtain ⟨fields', hset⟩ := exists_setNamed? (x := x) hname
      exact ⟨_, congrArg (Option.map _) hset⟩

end Objects

end Comptime
