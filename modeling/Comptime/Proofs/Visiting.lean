import Comptime.Heap.Visit
import Comptime.Proofs.Replacing
import Comptime.Proofs.Reachability

/-! Visits. Every child of an object is offered once and in order, and the visit succeeds. What is
answered lands at the first child that has the place of the child it was given for. So each child
gets its own answer, from every visitor, exactly if no two fields and no two captures have the same
name. -/
namespace Comptime

variable {x : Item} {place : Place} {cs ds : List Child} {o o' : Object}

section Answers

variable {f : Child → Option Item}

/-- The object after one child was offered to `f`: an answer is set at the place of the child. -/
def Object.land (f : Child → Option Item) (o : Object) (c : Child) : Object :=
  match f c with
  | some x => (o.setChild? x c.1).getD o
  | none => o

/-- The same step on the list of children. -/
def land (f : Child → Option Item) (cs : List Child) (c : Child) : List Child :=
  match f c with
  | some x => setFirst x c.1 cs
  | none => cs

/-- The last answer that is given for a place. -/
def lastAnswer (f : Child → Option Item) (place : Place) (cs : List Child) : Option Item :=
  cs.reverse.findSome? fun c => if c.1 = place then f c else none

/-- The children after all were offered to `f`: the first child at a place gets the last answer for
the place, and the others at that place stay as they were. -/
def landed (f : Child → Option Item) (cs : List Child) : List Child :=
  cs.mapIdx fun i c =>
    if c.1 ∈ (cs.map Prod.fst).take i then c else (c.1, (lastAnswer f c.1 cs).getD c.2)

@[simp]
theorem map_fst_land (c : Child) : (land f cs c).map Prod.fst = cs.map Prod.fst := by
  unfold land
  split
  · exact map_fst_setFirst
  · rfl

theorem Object.children_land {c : Child} (hc : c.1 ∈ o.children.map Prod.fst) :
    (o.land f c).children = Comptime.land f o.children c ∧ (o.land f c).shape = o.shape := by
  unfold Object.land Comptime.land
  cases f c with
  | none => exact ⟨rfl, rfl⟩
  | some x =>
    obtain ⟨o', ho⟩ := Object.exists_setChild? x hc
    obtain ⟨hfirst, hshape⟩ := Object.setChild?_eq_some ho
    simp only [ho, Option.getD_some]
    exact ⟨hfirst.eq, hshape⟩

theorem Object.children_foldl_land (hds : ∀ c ∈ ds, c.1 ∈ o.children.map Prod.fst) :
    (ds.foldl (Object.land f) o).children = ds.foldl (Comptime.land f) o.children ∧
      (ds.foldl (Object.land f) o).shape = o.shape := by
  induction ds generalizing o with
  | nil => exact ⟨rfl, rfl⟩
  | cons c ds ih =>
    rw [List.forall_mem_cons] at hds
    obtain ⟨hchildren, hshape⟩ := Object.children_land (f := f) hds.1
    have hrest : ∀ d ∈ ds, d.1 ∈ (o.land f c).children.map Prod.fst := by
      rw [hchildren, map_fst_land]
      exact hds.2
    obtain ⟨hc, hs⟩ := ih hrest
    exact ⟨by rw [List.foldl_cons, hc, hchildren, List.foldl_cons], hs.trans hshape⟩

theorem lastAnswer_cons (c : Child) :
    lastAnswer f place (c :: cs) =
      (lastAnswer f place cs).or (if c.1 = place then f c else none) := by
  simp [lastAnswer, List.findSome?_append]

theorem getElem?_land (c : Child) (i : Nat) :
    (land f cs c)[i]? = cs[i]?.map fun d =>
      if d.1 ∈ (cs.map Prod.fst).take i then d
      else (d.1, (if c.1 = d.1 then f c else none).getD d.2) := by
  unfold land
  cases f c with
  | none => simp
  | some x =>
    rw [getElem?_setFirst]
    congr 1
    funext d
    by_cases hd : d.1 = c.1
    · by_cases hm : c.1 ∈ (cs.map Prod.fst).take i <;> simp [hd, hm]
    · simp [hd, Ne.symm hd]

/-- The run over the children `ds` of a list with the places of `cs`. -/
theorem getElem?_foldl_land (ds cs : List Child) (i : Nat) :
    (ds.foldl (land f) cs)[i]? = cs[i]?.map fun d =>
      if d.1 ∈ (cs.map Prod.fst).take i then d else (d.1, (lastAnswer f d.1 ds).getD d.2) := by
  induction ds generalizing cs with
  | nil => simp [lastAnswer]
  | cons c ds ih =>
    rw [List.foldl_cons, ih, getElem?_land, map_fst_land, Option.map_map]
    congr 1
    funext d
    by_cases hd : d.1 ∈ (cs.map Prod.fst).take i
    · simp [hd]
    · simp only [Function.comp_apply, if_neg hd, lastAnswer_cons]
      cases lastAnswer f d.1 ds <;> simp

theorem foldl_land_self (cs : List Child) : cs.foldl (land f) cs = landed f cs := by
  refine List.ext_getElem? fun i => ?_
  rw [getElem?_foldl_land, landed, List.getElem?_mapIdx]

theorem map_fst_landed : (landed f cs).map Prod.fst = cs.map Prod.fst := by
  refine List.ext_getElem? fun i => ?_
  simp only [landed, List.getElem?_map, List.getElem?_mapIdx, Option.map_map]
  congr 1
  funext c
  simp only [Function.comp_apply]
  split <;> rfl

theorem lastAnswer_eq_none (h : place ∉ cs.map Prod.fst) : lastAnswer f place cs = none := by
  rw [lastAnswer, List.findSome?_eq_none_iff]
  intro c hc
  refine if_neg fun he => h ?_
  rw [← he]
  exact List.mem_map_of_mem (List.mem_reverse.mp hc)

theorem lastAnswer_of_nodup {c : Child} (hn : (cs.map Prod.fst).Nodup) (hc : c ∈ cs) :
    lastAnswer f c.1 cs = f c := by
  induction cs with
  | nil => cases hc
  | cons d cs ih =>
    rw [List.map_cons, List.nodup_cons] at hn
    rw [lastAnswer_cons]
    obtain rfl | hc := List.mem_cons.mp hc
    · rw [lastAnswer_eq_none hn.1, Option.none_or, if_pos rfl]
    · have hne : d.1 ≠ c.1 := by
        intro he
        rw [he] at hn
        exact hn.1 (List.mem_map_of_mem hc)
      rw [ih hn.2 hc, if_neg hne, Option.or_none]

/-- Where no two children share a place, each gets the answer given for it. -/
theorem landed_of_nodup (hn : (cs.map Prod.fst).Nodup) :
    landed f cs = cs.map fun c => (c.1, (f c).getD c.2) := by
  refine List.ext_getElem? fun i => ?_
  rw [landed, List.getElem?_mapIdx, List.getElem?_map]
  cases hc : cs[i]? with
  | none => rfl
  | some c =>
    have hplace : (cs.map Prod.fst)[i]? = some c.1 := by rw [List.getElem?_map, hc, Option.map_some]
    have hfirst : c.1 ∉ (cs.map Prod.fst).take i := by
      intro hm
      obtain ⟨j, hj⟩ := List.mem_iff_getElem?.mp hm
      rw [List.getElem?_take] at hj
      split at hj
      · rename_i hji
        have hlt := (List.getElem?_eq_some_iff.mp hplace).1
        exact List.nodup_iff_getElem?_ne_getElem?.mp hn j i hji hlt (hj.trans hplace.symm)
      · cases hj
    rw [Option.map_some, Option.map_some, if_neg hfirst,
      lastAnswer_of_nodup hn (List.mem_of_getElem? hc)]

/-- Only where no two children share a place does every child get its own answer from every
visitor. -/
theorem landed_eq_map_iff :
    (∀ f, landed f cs = cs.map fun c => (c.1, (f c).getD c.2)) ↔ (cs.map Prod.fst).Nodup := by
  refine ⟨fun hall => ?_, fun hn f => landed_of_nodup hn⟩
  rw [List.nodup_iff_getElem?_ne_getElem?]
  intro i j hij hj he
  obtain ⟨c, hc⟩ : ∃ c, cs[j]? = some c := ⟨_, List.getElem?_eq_getElem (by simpa using hj)⟩
  obtain ⟨y, hy⟩ : ∃ y : Item, y ≠ c.2 := by
    by_cases hnull : c.2 = .null
    · exact ⟨.undefined, by simp [hnull]⟩
    · exact ⟨.null, Ne.symm hnull⟩
  -- the second of two children at one place keeps its item, whatever is answered for the place
  have hsecond : c.1 ∈ (cs.map Prod.fst).take j := by
    refine List.mem_of_getElem? (i := i) ?_
    rw [List.getElem?_take_of_lt hij, he, List.getElem?_map, hc, Option.map_some]
  have heq := congrArg (·[j]?) (hall fun _ => some y)
  simp only [landed, List.getElem?_mapIdx, List.getElem?_map, hc, Option.map_some, if_pos hsecond,
    Option.getD_some, Option.some.injEq] at heq
  exact hy (congrArg Prod.snd heq).symm

theorem Object.replaceChildren_eq_land (g : Item → Option Item) (o : Object) :
    o.replaceChildren g =
      (o.children.foldl (Object.land fun c => g c.2) o,
        o.children.countP fun c => (g c.2).isSome) := by
  have hfold : ∀ (cs : List Child) (o : Object) (n : Nat),
      cs.foldl (Object.replaceChild g) (o, n) =
        (cs.foldl (Object.land fun c => g c.2) o, n + cs.countP fun c => (g c.2).isSome) := by
    intro cs
    induction cs with
    | nil => exact fun _ _ => rfl
    | cons c cs ih =>
      intro o n
      rw [List.foldl_cons, List.foldl_cons, List.countP_cons, Object.replaceChild, Object.land]
      cases g c.2 with
      | none => exact ih _ _
      | some x =>
        simp only [ih, Option.isSome_some, if_true]
        rw [Nat.add_right_comm, Nat.add_assoc]
  rw [Object.replaceChildren_eq, hfold, Nat.zero_add]

/-- The children of an object after all were offered, and what stays of it. -/
theorem Object.children_land_all (f : Child → Option Item) (o : Object) :
    (o.children.foldl (Object.land f) o).children = landed f o.children ∧
      (o.children.foldl (Object.land f) o).shape = o.shape := by
  rw [← foldl_land_self]
  exact Object.children_foldl_land fun c hc => List.mem_map_of_mem hc

end Answers

namespace Heap

variable {heap : Heap} {h k : Handle} {f : Child → Option Item}

/-- The names that an object gives to its children. -/
def names (heap : Heap) (h : Handle) : List String := (heap.get? h).elim [] Object.names

theorem set_set (o o' : Object) : (heap.set h o).set h o' = heap.set h o' := by
  simp [set]

theorem set_self (ho : heap.get? h = some o) : heap.set h o = heap := by
  obtain ⟨hlt, rfl⟩ := Array.getElem?_eq_some_iff.mp ho
  simp [set, Array.setIfInBounds, hlt]

theorem setChild_of_setChild? (ho : heap.get? h = some o) (hset : o.setChild? x place = some o') :
    heap.setChild h place x = .ok (heap.set h o') := by
  simp [setChild, ho, hset]

/-- Notes each child that is offered, and answers by a function. -/
def noting (f : Child → Option Item) (c : Child) : StateM (List Child) (Option Item) := do
  modify (· ++ [c])
  return f c

theorem visitFrom_noting_none {c : Child} (hf : f c = none) (n : Nat) (log : List Child) :
    (visitFrom h (noting f) (c :: cs) n heap).run log =
      (visitFrom h (noting f) cs n heap).run (log ++ [c]) := by
  simp [visitFrom, noting, hf]

theorem visitFrom_noting_some {c : Child} (hf : f c = some x) (ho : heap.get? h = some o)
    (hset : o.setChild? x c.1 = some o') (n : Nat) (log : List Child) :
    (visitFrom h (noting f) (c :: cs) n heap).run log =
      (visitFrom h (noting f) cs (n + 1) (heap.set h o')).run (log ++ [c]) := by
  simp [visitFrom, noting, hf, setChild_of_setChild? ho hset]

/-- The run over children `cs` that all have places of the object. -/
theorem visitFrom_noting (ho : heap.get? h = some o)
    (hcs : ∀ c ∈ cs, c.1 ∈ o.children.map Prod.fst) (n : Nat) (log : List Child) :
    (visitFrom h (noting f) cs n heap).run log =
      ((.ok (n + cs.countP fun c => (f c).isSome), heap.set h (cs.foldl (Object.land f) o)),
        log ++ cs) := by
  induction cs generalizing heap o n log with
  | nil =>
    rw [List.foldl_nil, set_self ho, List.append_nil]
    rfl
  | cons c cs ih =>
    rw [List.forall_mem_cons] at hcs
    rw [List.foldl_cons, List.countP_cons]
    cases hf : f c with
    | none =>
      have hland : o.land f c = o := by rw [Object.land, hf]
      rw [visitFrom_noting_none hf, ih ho hcs.2, hland, List.append_assoc]
      rfl
    | some x =>
      obtain ⟨o', hset⟩ := Object.exists_setChild? x hcs.1
      have hland : o.land f c = o' := by
        rw [Object.land, hf]
        simp only [hset, Option.getD_some]
      have ho' : (heap.set h o').get? h = some o' := by
        rw [get?_set, if_pos rfl, ho, Option.map_some]
      have hplaces : ∀ d ∈ cs, d.1 ∈ o'.children.map Prod.fst := by
        rw [← hland, (Object.children_land hcs.1).1, map_fst_land]
        exact hcs.2
      rw [visitFrom_noting_some hf ho hset, ih ho' hplaces, hland, set_set, List.append_assoc,
        Nat.add_right_comm, Nat.add_assoc]
      rfl

/-- A visit offers each child once and in order, and succeeds. -/
theorem visitChildren_noting (ho : heap.get? h = some o) :
    (heap.visitChildren h (noting f)).run [] =
      ((.ok ((heap.children h).countP fun c => (f c).isSome),
        heap.set h (o.children.foldl (Object.land f) o)), heap.children h) := by
  have hchildren : heap.children h = o.children := by rw [children, ho, Option.elim_some]
  rw [visitChildren, hchildren, visitFrom_noting ho fun c hc => List.mem_map_of_mem hc,
    Nat.zero_add, List.nil_append]

/-- Replacing children by their items alone is a visit. -/
theorem visitChildren_eq_replaceChildren (ho : heap.get? h = some o) (g : Item → Option Item) :
    (heap.visitChildren h (noting fun c => g c.2)).run [] =
      ((.ok (heap.replaceChildren h g).2, (heap.replaceChildren h g).1), heap.children h) := by
  have hchildren : heap.children h = o.children := by rw [children, ho, Option.elim_some]
  simp only [visitChildren_noting ho, replaceChildren, ho, hchildren,
    Object.replaceChildren_eq_land]

/-- What a visit does. Each child is offered once and in order, the visit succeeds, and it counts
the answers. The places stay, and so does the rest of the object and of the heap; the first child at
a place gets the last answer for the place. So each child gets its own answer, whatever the visitor,
exactly if the names of the object are different. -/
theorem visits_exactly (hlt : h < heap.size) :
    (∀ f : Child → Option Item, ∃ heap',
      (heap.visitChildren h (noting f)).run [] =
        ((.ok ((heap.children h).countP fun c => (f c).isSome), heap'), heap.children h) ∧
      (heap'.children h).map Prod.fst = (heap.children h).map Prod.fst ∧
      heap'.children h = landed f (heap.children h) ∧
      (heap'.get? h).map Object.shape = (heap.get? h).map Object.shape ∧
      heap'.size = heap.size ∧ ∀ k, k ≠ h → heap'.get? k = heap.get? k) ∧
    ((∀ f : Child → Option Item,
      ((heap.visitChildren h (noting f)).run []).1.2.children h =
        (heap.children h).map fun c => (c.1, (f c).getD c.2)) ↔
      (heap.names h).Nodup) := by
  obtain ⟨o, ho⟩ := exists_get? hlt
  have hchildren : heap.children h = o.children := by rw [children, ho, Option.elim_some]
  have hget (o' : Object) : (heap.set h o').get? h = some o' := by
    rw [get?_set, if_pos rfl, ho, Option.map_some]
  have hset (f : Child → Option Item) :
      (heap.set h (o.children.foldl (Object.land f) o)).children h = landed f o.children := by
    rw [children, hget, Option.elim_some, (Object.children_land_all f o).1]
  constructor
  · intro f
    refine ⟨_, visitChildren_noting ho, ?_, ?_, ?_, size_set, fun k hk => ?_⟩
    · rw [hset, map_fst_landed, hchildren]
    · rw [hset, hchildren]
    · rw [hget, ho, Option.map_some, Option.map_some, (Object.children_land_all f o).2]
    · rw [get?_set, if_neg (Ne.symm hk)]
  · have hnames : heap.names h = o.names := by rw [names, ho, Option.elim_some]
    rw [hnames, ← Object.nodup_places_iff, ← landed_eq_map_iff]
    refine forall_congr' fun f => ?_
    rw [visitChildren_noting ho, hset, hchildren]

/-- A record with two fields. -/
def pairHeap (first second : String) : Heap :=
  ⟨#[.record [] [(first, .null), (second, .bool true)]]⟩

def answerTrue (c : Child) : Option Item :=
  match c.2 with
  | .bool true => some (.str "x")
  | _ => none

/-- The answer for the second field lands there, since the first has another name. -/
theorem visits_exactly_pair :
    (((pairHeap "a" "b").visitChildren 0 (noting answerTrue)).run []).1.2.children 0 =
      [(.field "a", .null), (.field "b", .str "x")] := by
  have hlt : 0 < (pairHeap "a" "b").size := by decide
  exact (visits_exactly hlt).2.mpr (by decide) answerTrue

/-- With one name for both fields, the answer for the second lands at the first. -/
theorem not_visits_own_pair :
    ((pairHeap "a" "a").visitChildren 0 (noting answerTrue)).run [] =
        ((.ok 1, ⟨#[.record [] [("a", .str "x"), ("a", .bool true)]]⟩),
          [(.field "a", .null), (.field "a", .bool true)]) ∧
      (((pairHeap "a" "a").visitChildren 0 (noting answerTrue)).run []).1.2.children 0 ≠
        ((pairHeap "a" "a").children 0).map fun c => (c.1, (answerTrue c).getD c.2) := by
  refine ⟨rfl, fun h => ?_⟩
  cases h

end Heap

end Comptime
