import Comptime.Proofs.Renaming.Basic

/-! Replacing children and literal items, and what that leaves in an object. -/
namespace Comptime

variable {r : Renaming} {D : Handle → Prop} {x y : Item} {o o' : Object} {place : Place}

theorem setNth?_rename (items : List Item) (i : Nat) (x : Item) :
    setNth? (items.map (Item.rename r)) i (x.rename r) =
      (setNth? items i x).map (List.map (Item.rename r)) := by
  unfold setNth?
  rw [List.length_map]
  split <;> simp [List.map_set]

theorem setNamed?_rename (x : Item) (name : String) (fields : Fields) :
    setNamed? (x.rename r) name (Fields.rename r fields) =
      (setNamed? x name fields).map (Fields.rename r) := by
  induction fields with
  | nil => rfl
  | cons f fields ih =>
    simp only [Fields.rename, List.map_cons, setNamed?] at ih ⊢
    split
    · rfl
    · rw [ih]
      cases setNamed? x name fields <;> rfl

mutual

theorem Code.setItem_rename (x : Item) (c : Code) (n : Nat) :
    (c.rename r).setItem (x.rename r) n = (c.setItem x n).rename r := by
  cases c with
  | lit y =>
    simp only [Code.rename, Code.setItem]
    split <;> rfl
  | comptime | ident => rfl
  | call c args =>
    simp only [Code.rename, Code.setItem, Code.items_rename, List.length_map]
    split
    · rw [Code.setItem_rename x c, Code.rename]
    · rw [Code.setItemAll_rename x args, Code.rename]
  | member o name => exact congrArg (Code.member · name) (Code.setItem_rename x o n)
  | index o k =>
    simp only [Code.rename, Code.setItem, Code.items_rename, List.length_map]
    split
    · rw [Code.setItem_rename x o, Code.rename]
    · rw [Code.setItem_rename x k, Code.rename]
  | array es => exact congrArg Code.array (Code.setItemAll_rename x es n)
  | binary op a b =>
    simp only [Code.rename, Code.setItem, Code.items_rename, List.length_map]
    split
    · rw [Code.setItem_rename x a, Code.rename]
    · rw [Code.setItem_rename x b, Code.rename]
  | lambda params body => exact congrArg (Code.lambda params) (Stmt.setItemAll_rename x body n)

theorem Code.setItemAll_rename (x : Item) (cs : List Code) (n : Nat) :
    Code.setItemAll (x.rename r) (Code.renameAll r cs) n =
      Code.renameAll r (Code.setItemAll x cs n) := by
  cases cs with
  | nil => rfl
  | cons c cs =>
    simp only [Code.renameAll, Code.setItemAll, Code.items_rename, List.length_map]
    split
    · rw [Code.setItem_rename x c, Code.renameAll]
    · rw [Code.setItemAll_rename x cs, Code.renameAll]

theorem Stmt.setItem_rename (x : Item) (s : Stmt) (n : Nat) :
    (s.rename r).setItem (x.rename r) n = (s.setItem x n).rename r := by
  cases s with
  | letBind name c => exact congrArg (Stmt.letBind name) (Code.setItem_rename x c n)
  | exportConst name c => exact congrArg (Stmt.exportConst name) (Code.setItem_rename x c n)
  | expr c => exact congrArg Stmt.expr (Code.setItem_rename x c n)
  | ret c => exact congrArg Stmt.ret (Code.setItem_rename x c n)
  | retVoid => rfl

theorem Stmt.setItemAll_rename (x : Item) (ss : List Stmt) (n : Nat) :
    Stmt.setItemAll (x.rename r) (Stmt.renameAll r ss) n =
      Stmt.renameAll r (Stmt.setItemAll x ss n) := by
  cases ss with
  | nil => rfl
  | cons s ss =>
    simp only [Stmt.renameAll, Stmt.setItemAll, Stmt.items_rename, List.length_map]
    split
    · rw [Stmt.setItem_rename x s, Stmt.renameAll]
    · rw [Stmt.setItemAll_rename x ss, Stmt.renameAll]

end

theorem TypeKind.setChild?_rename (x : Item) (k : TypeKind) (place : Place) :
    (k.rename r).setChild? (x.rename r) place = (k.setChild? x place).map (TypeKind.rename r) := by
  cases k with
  | object features fields =>
    cases place with
    | typeFeature i =>
      simp only [TypeKind.rename, TypeKind.setChild?, setNth?_rename]
      cases setNth? features i x <;> rfl
    | typeField name =>
      simp only [TypeKind.rename, TypeKind.setChild?, setNamed?_rename]
      cases setNamed? x name fields <;> rfl
    | _ => rfl
  | _ => cases place <;> rfl

theorem TypeValue.setChild?_rename (x : Item) (t : TypeValue) (place : Place) :
    (t.rename r).setChild? (x.rename r) place =
      (t.setChild? x place).map (TypeValue.rename r) := by
  have hkind : ∀ place, (do
      let kind ← (t.kind.rename r).setChild? (x.rename r) place
      some { kind, applications := t.applications.map (Application.rename r) }) =
      (do
        let kind ← t.kind.setChild? x place
        some { t with kind }).map (TypeValue.rename r) := by
    intro place
    rw [TypeKind.setChild?_rename]
    cases t.kind.setChild? x place <;> rfl
  cases place with
  | argument entry i =>
    simp only [TypeValue.setChild?, TypeValue.rename, List.getElem?_map]
    cases t.applications[entry]? with
    | none => rfl
    | some a =>
      obtain ⟨site, args⟩ := a
      cases args with
      | none => rfl
      | some args =>
        simp only [Application.setArgument?, Application.rename, Option.map_some,
          Option.bind_eq_bind, Option.bind_some, setNth?_rename]
        cases setNth? args i x with
        | none => rfl
        | some args' => simp [TypeValue.rename, List.map_set, Application.rename]
  | _ => exact hkind _

/-- Replacing a child commutes with renaming. -/
theorem Object.setChild?_rename (x : Item) (o : Object) (place : Place) :
    (o.rename r).setChild? (x.rename r) place = (o.setChild? x place).map (Object.rename r) := by
  cases o with
  | seq items =>
    cases place with
    | index i =>
      simp only [Object.rename, Object.setChild?, setNth?_rename]
      cases setNth? items i x <;> rfl
    | _ => rfl
  | record features fields =>
    cases place with
    | feature i =>
      simp only [Object.rename, Object.setChild?, setNth?_rename]
      cases setNth? features i x <;> rfl
    | field name =>
      simp only [Object.rename, Object.setChild?, setNamed?_rename]
      cases setNamed? x name fields <;> rfl
    | _ => rfl
  | feature name key fields =>
    cases place with
    | featureField f =>
      simp only [Object.rename, Object.setChild?, setNamed?_rename]
      cases setNamed? x f fields <;> rfl
    | _ => rfl
  | function f =>
    cases place with
    | capture name =>
      simp only [Object.rename, Closure.rename, Object.setChild?, setNamed?_rename]
      cases setNamed? x name f.captures <;> rfl
    | bodyItem i =>
      simp only [Object.rename, Closure.rename, Object.setChild?, Stmt.itemsAll_rename,
        List.length_map, Stmt.setItemAll_rename]
      split <;> rfl
    | _ => rfl
  | anchor name => rfl
  | type t =>
    simp only [Object.rename, Object.setChild?, TypeValue.setChild?_rename]
    cases t.setChild? x place <;> rfl

section Members

/-- The items of an object, in order. -/
def Object.held (o : Object) : List Item := o.children.map Prod.snd

theorem mem_setNth? {items items' : List Item} {i : Nat} (h : setNth? items i x = some items')
    (hy : y ∈ items') : y = x ∨ y ∈ items := by
  unfold setNth? at h
  split at h
  · cases h
    exact (List.mem_or_eq_of_mem_set hy).symm
  · cases h

theorem mem_setNamed? {fields fields' : Fields} {name : String}
    (h : setNamed? x name fields = some fields') (hy : y ∈ fields'.map Prod.snd) :
    y = x ∨ y ∈ fields.map Prod.snd := by
  induction fields generalizing fields' with
  | nil => cases h
  | cons f fields ih =>
    rw [setNamed?] at h
    split at h
    · cases h
      rcases List.mem_cons.mp hy with rfl | hy
      · exact Or.inl rfl
      · exact Or.inr (List.mem_cons_of_mem _ hy)
    · obtain ⟨fields₁, h₁, rfl⟩ := Option.map_eq_some_iff.mp h
      rcases List.mem_cons.mp hy with rfl | hy
      · exact Or.inr List.mem_cons_self
      · exact (ih h₁ hy).imp_right (List.mem_cons_of_mem _)

theorem TypeKind.mem_setChild? {k k' : TypeKind} (h : k.setChild? x place = some k')
    (hy : y ∈ k'.children.map Prod.snd) : y = x ∨ y ∈ k.children.map Prod.snd := by
  unfold TypeKind.setChild? at h
  split at h
  · cases h
    exact Or.inl (List.mem_singleton.mp hy)
  · cases h
    exact Or.inl (List.mem_singleton.mp hy)
  · obtain ⟨features, hset, rfl⟩ := Option.map_eq_some_iff.mp h
    simp only [TypeKind.children, List.map_append, List.mem_append, mem_indexed_items] at hy ⊢
    rcases hy with hy | hy
    · exact (mem_setNth? hset hy).imp_right Or.inl
    · exact Or.inr (Or.inr hy)
  · obtain ⟨fields, hset, rfl⟩ := Option.map_eq_some_iff.mp h
    simp only [TypeKind.children, List.map_append, List.mem_append, mem_named_items] at hy ⊢
    rcases hy with hy | hy
    · exact Or.inr (Or.inl hy)
    · exact (mem_setNamed? hset hy).imp_right Or.inr
  · cases h

theorem TypeValue.mem_arguments {t : TypeValue} :
    y ∈ t.arguments.map Prod.snd ↔ ∃ a ∈ t.applications, y ∈ a.args.getD [] := by
  simp only [TypeValue.arguments, List.map_flatMap, List.mem_flatMap, mem_indexed_items]
  constructor
  · rintro ⟨p, hp, hy⟩
    exact ⟨p.1, (List.mem_zipIdx' hp).2 ▸ List.getElem_mem _, hy⟩
  · rintro ⟨a, ha, hy⟩
    obtain ⟨i, hlt, hi⟩ := List.mem_iff_getElem.mp ha
    exact ⟨(a, i), List.mem_zipIdx_iff_getElem?.mpr (by simp [hlt, hi]), hy⟩

/-- A type with arguments noted on it holds those besides what it held. -/
theorem TypeValue.mem_held_apply {t : TypeValue} {args : Option (List Item)}
    (hy : y ∈ (Object.type (t.apply args)).held) :
    y ∈ (Object.type t).held ∨ ∃ xs, args = some xs ∧ y ∈ xs := by
  unfold TypeValue.apply at hy
  cases hg : t.generic? with
  | none =>
    rw [hg] at hy
    exact Or.inl hy
  | some site =>
    simp only [hg, Object.held, Object.children, List.map_append, List.mem_append,
      TypeValue.mem_arguments] at hy ⊢
    rcases hy with hy | ⟨a, ha | ha, hy⟩
    · exact Or.inl (Or.inl hy)
    · exact Or.inl (Or.inr ⟨a, ha, hy⟩)
    · cases List.mem_singleton.mp ha
      cases args with
      | none => cases hy
      | some xs => exact Or.inr ⟨xs, rfl, hy⟩

theorem TypeValue.mem_setChild? {t t' : TypeValue} (h : t.setChild? x place = some t')
    (hy : y ∈ (Object.type t').children.map Prod.snd) :
    y = x ∨ y ∈ (Object.type t).children.map Prod.snd := by
  simp only [Object.children, List.map_append, List.mem_append] at hy ⊢
  unfold TypeValue.setChild? at h
  split at h
  · rename_i entry i
    obtain ⟨a, ha, h⟩ := Option.bind_eq_some_iff.mp h
    obtain ⟨a', ha', h⟩ := Option.bind_eq_some_iff.mp h
    obtain ⟨args, hargs, ha'⟩ := Option.bind_eq_some_iff.mp ha'
    obtain ⟨args', hargs', ha'⟩ := Option.bind_eq_some_iff.mp ha'
    cases h
    cases ha'
    rcases hy with hy | hy
    · exact Or.inr (Or.inl hy)
    · rw [TypeValue.mem_arguments] at hy ⊢
      obtain ⟨b, hb, hy⟩ := hy
      rcases List.mem_or_eq_of_mem_set hb with hb | rfl
      · exact Or.inr (Or.inr ⟨b, hb, hy⟩)
      · rcases mem_setNth? hargs' hy with rfl | hy
        · exact Or.inl rfl
        · exact Or.inr (Or.inr ⟨a, List.mem_of_getElem? ha, by rwa [hargs]⟩)
  · obtain ⟨kind, hk, h⟩ := Option.bind_eq_some_iff.mp h
    cases h
    rcases hy with hy | hy
    · exact (TypeKind.mem_setChild? hk hy).imp_right Or.inl
    · exact Or.inr (Or.inr hy)

/-- After a replacement the object holds the new item and nothing else that it did not hold. -/
theorem Object.mem_setChild? (h : o.setChild? x place = some o') (hy : y ∈ o'.held) :
    y = x ∨ y ∈ o.held := by
  unfold Object.held at hy ⊢
  unfold Object.setChild? at h
  split at h
  · obtain ⟨items, hset, rfl⟩ := Option.map_eq_some_iff.mp h
    simp only [Object.children, mem_indexed_items] at hy ⊢
    exact mem_setNth? hset hy
  · obtain ⟨features, hset, rfl⟩ := Option.map_eq_some_iff.mp h
    simp only [Object.children, List.map_append, List.mem_append, mem_indexed_items] at hy ⊢
    rcases hy with hy | hy
    · exact (mem_setNth? hset hy).imp_right Or.inl
    · exact Or.inr (Or.inr hy)
  · obtain ⟨fields, hset, rfl⟩ := Option.map_eq_some_iff.mp h
    simp only [Object.children, List.map_append, List.mem_append, mem_named_items] at hy ⊢
    rcases hy with hy | hy
    · exact Or.inr (Or.inl hy)
    · exact (mem_setNamed? hset hy).imp_right Or.inr
  · cases h
    simp only [Object.children, List.map_cons, List.mem_cons] at hy ⊢
    exact hy.imp_right Or.inr
  · obtain ⟨fields, hset, rfl⟩ := Option.map_eq_some_iff.mp h
    simp only [Object.children, List.map_cons, List.mem_cons, mem_named_items] at hy ⊢
    rcases hy with hy | hy
    · exact Or.inr (Or.inl hy)
    · exact (mem_setNamed? hset hy).imp_right Or.inr
  · obtain ⟨captures, hc, h⟩ := Option.bind_eq_some_iff.mp h
    cases h
    simp only [Object.children, List.map_append, List.mem_append, mem_named_items] at hy ⊢
    rcases hy with hy | hy
    · exact (mem_setNamed? hc hy).imp_right Or.inl
    · exact Or.inr (Or.inr hy)
  · split at h
    · cases h
      simp only [Object.children, List.map_append, List.mem_append, mem_indexed_items,
        Stmt.itemsAll_setItemAll] at hy ⊢
      rcases hy with hy | hy
      · exact Or.inr (Or.inl hy)
      · exact (List.mem_or_eq_of_mem_set hy).symm.imp_right Or.inr
    · cases h
  · obtain ⟨t, hset, rfl⟩ := Option.map_eq_some_iff.mp h
    exact TypeValue.mem_setChild? hset hy
  · cases h

end Members

section Replace

variable {f g : Item → Option Item}

/-- One step of a replacement: the child gets its new item, if it has one. -/
def Object.replaceChild (f : Item → Option Item) (acc : Object × Nat) (child : Child) :
    Object × Nat :=
  match f child.2 with
  | some x => ((acc.1.setChild? x child.1).getD acc.1, acc.2 + 1)
  | none => acc

theorem Object.replaceChildren_eq (o : Object) :
    o.replaceChildren f = o.children.foldl (Object.replaceChild f) (o, 0) := rfl

theorem Object.replaceChild_rename {c : Child}
    (hf : g (c.2.rename r) = (f c.2).map (Item.rename r)) (p : Object) (k : Nat) :
    Object.replaceChild g (p.rename r, k) (c.rename r) =
      ((Object.replaceChild f (p, k) c).1.rename r, (Object.replaceChild f (p, k) c).2) := by
  simp only [Object.replaceChild, Child.rename]
  rw [hf]
  cases f c.2 with
  | none => rfl
  | some x =>
    simp only [Option.map_some, Object.setChild?_rename]
    cases p.setChild? x c.1 <;> rfl

/-- Replacing children commutes with renaming, if finding their replacements does. -/
theorem Object.replaceChildren_rename
    (hf : ∀ x ∈ o.held, g (x.rename r) = (f x).map (Item.rename r)) :
    (o.rename r).replaceChildren g =
      ((o.replaceChildren f).1.rename r, (o.replaceChildren f).2) := by
  have hfold : ∀ (cs : List Child), (∀ c ∈ cs, g (c.2.rename r) = (f c.2).map (Item.rename r)) →
      ∀ (p : Object) (k : Nat),
      (cs.map (Child.rename r)).foldl (Object.replaceChild g) (p.rename r, k) =
        ((cs.foldl (Object.replaceChild f) (p, k)).1.rename r,
          (cs.foldl (Object.replaceChild f) (p, k)).2) := by
    intro cs
    induction cs with
    | nil => exact fun _ _ _ => rfl
    | cons c cs ih =>
      intro hcs p k
      rw [List.forall_mem_cons] at hcs
      simp only [List.map_cons, List.foldl_cons]
      rw [Object.replaceChild_rename hcs.1]
      exact ih hcs.2 _ _
  rw [Object.replaceChildren_eq, Object.children_rename, Object.replaceChildren_eq]
  exact hfold o.children (fun c hc => hf c.2 (List.mem_map_of_mem hc)) o 0

/-- What an object holds after its children were replaced. -/
theorem Object.mem_replaceChildren (hy : y ∈ (o.replaceChildren f).1.held) :
    y ∈ o.held ∨ ∃ x ∈ o.held, f x = some y := by
  have hfold : ∀ (cs : List Child), (∀ c ∈ cs, c.2 ∈ o.held) → ∀ (acc : Object × Nat),
      (∀ y ∈ acc.1.held, y ∈ o.held ∨ ∃ x ∈ o.held, f x = some y) →
      ∀ y ∈ (cs.foldl (Object.replaceChild f) acc).1.held,
        y ∈ o.held ∨ ∃ x ∈ o.held, f x = some y := by
    intro cs
    induction cs with
    | nil => exact fun _ _ ha => ha
    | cons c cs ih =>
      intro hcs acc ha
      rw [List.forall_mem_cons] at hcs
      refine ih hcs.2 _ ?_
      rw [Object.replaceChild]
      cases hx : f c.2 with
      | none => exact ha
      | some x =>
        dsimp only
        cases hs : acc.1.setChild? x c.1 with
        | none => exact ha
        | some p =>
          intro y hy
          rcases Object.mem_setChild? hs hy with rfl | hy
          · exact Or.inr ⟨c.2, hcs.1, hx⟩
          · exact ha y hy
  exact hfold o.children (fun c hc => List.mem_map_of_mem hc) (o, 0) (fun y hy => Or.inl hy) y hy

mutual

theorem Code.mapItems_rename {f g : Item → Item} {c : Code}
    (hf : ∀ x ∈ c.items, g (x.rename r) = (f x).rename r) :
    (c.rename r).mapItems g = (c.mapItems f).rename r := by
  cases c with
  | lit x => exact congrArg Code.lit (hf x (List.mem_singleton_self x))
  | comptime | ident => rfl
  | call c args =>
    simp only [Code.items, List.forall_mem_append] at hf
    simp only [Code.rename, Code.mapItems, Code.mapItems_rename hf.1, Code.mapItemsAll_rename hf.2]
  | member o name => exact congrArg (Code.member · name) (Code.mapItems_rename (c := o) hf)
  | index o k =>
    simp only [Code.items, List.forall_mem_append] at hf
    simp only [Code.rename, Code.mapItems, Code.mapItems_rename hf.1, Code.mapItems_rename hf.2]
  | array es => exact congrArg Code.array (Code.mapItemsAll_rename hf)
  | binary op a b =>
    simp only [Code.items, List.forall_mem_append] at hf
    simp only [Code.rename, Code.mapItems, Code.mapItems_rename hf.1, Code.mapItems_rename hf.2]
  | lambda params body => exact congrArg (Code.lambda params) (Stmt.mapItemsAll_rename hf)

theorem Code.mapItemsAll_rename {f g : Item → Item} {cs : List Code}
    (hf : ∀ x ∈ Code.itemsAll cs, g (x.rename r) = (f x).rename r) :
    Code.mapItemsAll g (Code.renameAll r cs) = Code.renameAll r (Code.mapItemsAll f cs) := by
  cases cs with
  | nil => rfl
  | cons c cs =>
    simp only [Code.itemsAll, List.forall_mem_append] at hf
    simp only [Code.renameAll, Code.mapItemsAll, Code.mapItems_rename hf.1,
      Code.mapItemsAll_rename hf.2]

theorem Stmt.mapItems_rename {f g : Item → Item} {s : Stmt}
    (hf : ∀ x ∈ s.items, g (x.rename r) = (f x).rename r) :
    (s.rename r).mapItems g = (s.mapItems f).rename r := by
  cases s with
  | letBind name c => exact congrArg (Stmt.letBind name) (Code.mapItems_rename (c := c) hf)
  | exportConst name c => exact congrArg (Stmt.exportConst name) (Code.mapItems_rename (c := c) hf)
  | expr c => exact congrArg Stmt.expr (Code.mapItems_rename (c := c) hf)
  | ret c => exact congrArg Stmt.ret (Code.mapItems_rename (c := c) hf)
  | retVoid => rfl

theorem Stmt.mapItemsAll_rename {f g : Item → Item} {ss : List Stmt}
    (hf : ∀ x ∈ Stmt.itemsAll ss, g (x.rename r) = (f x).rename r) :
    Stmt.mapItemsAll g (Stmt.renameAll r ss) = Stmt.renameAll r (Stmt.mapItemsAll f ss) := by
  cases ss with
  | nil => rfl
  | cons s ss =>
    simp only [Stmt.itemsAll, List.forall_mem_append] at hf
    simp only [Stmt.renameAll, Stmt.mapItemsAll, Stmt.mapItems_rename hf.1,
      Stmt.mapItemsAll_rename hf.2]

end

end Replace

end Comptime
