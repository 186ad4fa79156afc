import Comptime.Emit.Modules
import Comptime.Proofs.BindingOrder
import Comptime.Proofs.Edges
import Mathlib

/-! The companion module is exact: one line binds each tracked object, a reference is written by
name if its target is bound before, and every other reference is patched once. -/
namespace Comptime.Output

/-- A reference that is read while `source` is built. It stands at the end of `path`; the positions
of the children on the way tell references apart that share a path. -/
structure Edge where
  source : Handle
  steps : List Nat
  path : List Place
  target : Handle
deriving DecidableEq

variable {out : Output} {order rest : List Handle} {bound : HandleSet} {d r : Handle}

def IsEdge (out : Output) (e : Edge) : Prop := out.Leads e.source e.steps e.path e.target

/-- The text that names the place of a reference. -/
def edgePath (out : Output) (e : Edge) : String := out.binding e.source ++ pathText e.path

def patchLine (out : Output) (e : Edge) : String :=
  out.edgePath e ++ " = " ++ out.binding e.target ++ ";"

/-- The binding of `d` comes before that of `r`. -/
def Precedes (order : List Handle) (d r : Handle) : Prop := order.idxOf d < order.idxOf r

instance : Decidable (Precedes order d r) :=
  inferInstanceAs (Decidable (order.idxOf d < order.idxOf r))

/-- A reference as it is written in the binding of its source. -/
def written (out : Output) (order : List Handle) (e : Edge) : String :=
  if Precedes order e.target e.source then out.binding e.target else "undefined"

/-- A definition in terms of text and edges. -/
def segmentPiece (out : Output) : String ⊕ Edge → Piece
  | .inl s => .text s
  | .inr e => .ref (out.edgePath e) e.target

/-- The edges of a definition, in order. -/
def edgesOf (segments : List (String ⊕ Edge)) : List Edge := segments.filterMap Sum.getRight?

/-- Pieces with the references of given edges are made of those edges. -/
theorem exists_segments_of_refs {ps : List Piece} (es : List Edge)
    (hr : Piece.refs ps = es.map fun e => (out.edgePath e, e.target)) :
    ∃ segments, ps = segments.map out.segmentPiece ∧ edgesOf segments = es := by
  induction ps generalizing es with
  | nil =>
    obtain rfl : es = [] := by simpa using hr.symm
    exact ⟨[], rfl, rfl⟩
  | cons p ps ih =>
    cases p with
    | text s =>
      obtain ⟨segments, rfl, rfl⟩ := ih es hr
      exact ⟨.inl s :: segments, rfl, rfl⟩
    | ref path h =>
      cases es with
      | nil => simp at hr
      | cons e es =>
        simp only [Piece.refs_ref, List.map_cons, List.cons.injEq, Prod.mk.injEq] at hr
        obtain ⟨⟨rfl, rfl⟩, hr⟩ := hr
        obtain ⟨segments, rfl, rfl⟩ := ih es hr
        exact ⟨.inr e :: segments, rfl, rfl⟩

/-- A definition is text with each edge of its object in one place. -/
theorem exists_segments {ps : List Piece} (hd : out.define r = .ok ps) :
    ∃ segments, ps = segments.map out.segmentPiece ∧ (edgesOf segments).Nodup ∧
      ∀ e, e ∈ edgesOf segments ↔ e.source = r ∧ out.IsEdge e := by
  obtain ⟨ways, ⟨hnodup, hmem⟩, hrefs⟩ := finds_defineWithin _ _ _ _ hd
  have hrefs : Piece.refs ps =
      (ways.map fun w => Edge.mk r w.1 w.2.1 w.2.2).map fun e => (out.edgePath e, e.target) := by
    rw [hrefs, List.map_map]
    rfl
  obtain ⟨segments, hps, hedges⟩ := exists_segments_of_refs _ hrefs
  refine ⟨segments, hps, ?_, fun e => ?_⟩
  · rw [hedges]
    refine hnodup.map fun v w hvw => ?_
    simp only [Edge.mk.injEq, true_and] at hvw
    exact Prod.ext hvw.1 (Prod.ext hvw.2.1 hvw.2.2)
  · rw [hedges, List.mem_map]
    constructor
    · rintro ⟨w, hw, rfl⟩
      exact ⟨rfl, (hmem w).mp hw⟩
    · rintro ⟨rfl, he⟩
      exact ⟨(e.steps, e.path, e.target), (hmem _).mpr he, rfl⟩

/-- When `r` is bound, exactly what precedes it has a binding. -/
theorem precedes_iff {pre : List Handle} (hr : r ∉ pre) :
    Precedes (pre ++ r :: rest) d r ↔ d ∈ pre := by
  rw [Precedes, List.idxOf_append, List.idxOf_append, if_neg hr, List.idxOf_cons_self]
  split
  · rename_i hd
    simp [List.idxOf_lt_length_iff.mpr hd, hd]
  · rename_i hd
    simp [hd]

/-- The line that binds `r` when the bindings come in the given order. -/
def lineIn (out : Output) (order : List Handle) (r : Handle) (segments : List (String ⊕ Edge)) :
    String :=
  "export const " ++ out.binding r ++ " = " ++
    String.join (segments.map (Sum.elim id (out.written order))) ++ ";"

/-- The edges of `r` that its binding leaves to be patched. -/
def late (order : List Handle) (segments : List (String ⊕ Edge)) : List Edge :=
  (edgesOf segments).filter fun e => ¬ Precedes order e.target e.source

section

variable {segments : List (String ⊕ Edge)}

theorem bindingLine_eq (hs : ∀ e ∈ edgesOf segments, e.source = r)
    (hb : ∀ d, d ∈ bound ↔ Precedes order d r) :
    out.bindingLine bound r (segments.map out.segmentPiece) = out.lineIn order r segments := by
  have hpiece : ∀ x ∈ segments,
      out.pieceText bound (out.segmentPiece x) = Sum.elim id (out.written order) x := by
    intro x hx
    cases x with
    | inl s => rfl
    | inr e =>
      have he : e.source = r := hs e (List.mem_filterMap.mpr ⟨.inr e, hx, rfl⟩)
      simp [segmentPiece, pieceText, written, hb, he]
  have htexts : (segments.map out.segmentPiece).map (out.pieceText bound) =
      segments.map (Sum.elim id (out.written order)) := by
    rw [List.map_map]
    exact List.map_congr_left hpiece
  exact congrArg
    (fun texts => "export const " ++ out.binding r ++ " = " ++ String.join texts ++ ";") htexts

theorem filterMap_patch?_eq (hs : ∀ e ∈ edgesOf segments, e.source = r)
    (hb : ∀ d, d ∈ bound ↔ Precedes order d r) :
    (segments.map out.segmentPiece).filterMap (out.patch? bound) =
      (late order segments).map out.patchLine := by
  induction segments with
  | nil => rfl
  | cons x segments ih =>
    cases x with
    | inl s => exact ih hs
    | inr e =>
      have he : e.source = r := hs e List.mem_cons_self
      have ih := ih fun e he => hs e (List.mem_cons_of_mem _ he)
      have hlate : late order (.inr e :: segments) =
          if Precedes order e.target e.source then late order segments
          else e :: late order segments := by
        simp only [late, edgesOf, List.filterMap_cons, Sum.getRight?_inr, List.filter_cons]
        split <;> simp_all
      rw [List.map_cons, List.filterMap_cons, ih, hlate]
      by_cases hp : Precedes order e.target e.source
      · simp [segmentPiece, patch?, hb, ← he, hp]
      · simp [segmentPiece, patch?, hb, ← he, hp, patchLine]

end

/-- What binding the rest after `pre` gives, in terms of the definitions alone. -/
theorem bindAll_eq (pre : List Handle) {lines patches : List String}
    (h : out.bindAll out.define bound rest = .ok (lines, patches)) (hb : ∀ d, d ∈ bound ↔ d ∈ pre)
    (hn : (pre ++ rest).Nodup) :
    (∀ r ∈ rest, ∃ ps, out.define r = .ok ps) ∧
      ∀ segments : Handle → List (String ⊕ Edge),
        (∀ r ∈ rest, out.define r = .ok ((segments r).map out.segmentPiece)) →
        (∀ r ∈ rest, ∀ e ∈ edgesOf (segments r), e.source = r) →
        lines = rest.map (fun r => out.lineIn (pre ++ rest) r (segments r)) ∧
          patches = (rest.flatMap fun r => late (pre ++ rest) (segments r)).map out.patchLine := by
  induction rest generalizing bound pre lines patches with
  | nil =>
    cases h
    exact ⟨fun r hr => absurd hr List.not_mem_nil, fun _ _ _ => ⟨rfl, rfl⟩⟩
  | cons r rest ih =>
    obtain ⟨ps, hps, h⟩ := bind_eq_ok.mp h
    obtain ⟨⟨ls, qs⟩, hrest, h⟩ := bind_eq_ok.mp h
    cases h
    have happ : pre ++ r :: rest = (pre ++ [r]) ++ rest := by simp
    have hr : r ∉ pre := fun hm => (List.nodup_append.mp hn).2.2 r hm r List.mem_cons_self rfl
    have hbr : ∀ d, d ∈ bound.insert r ↔ d ∈ pre ++ [r] := by
      intro d
      simp only [Std.TreeSet.mem_insert, compare_eq_iff_eq, hb, List.mem_append,
        List.mem_singleton]
      rw [or_comm, eq_comm]
    obtain ⟨hdefs, hlines⟩ := ih (pre ++ [r]) hrest hbr (happ ▸ hn)
    refine ⟨List.forall_mem_cons.mpr ⟨⟨ps, hps⟩, hdefs⟩, fun segments hseg hsrc => ?_⟩
    obtain ⟨hseg, hsegs⟩ := List.forall_mem_cons.mp hseg
    obtain ⟨hsrc, hsrcs⟩ := List.forall_mem_cons.mp hsrc
    obtain ⟨rfl, rfl⟩ := hlines segments hsegs hsrcs
    obtain rfl : ps = (segments r).map out.segmentPiece := Except.ok.inj (hps.symm.trans hseg)
    have hprec : ∀ d, d ∈ bound ↔ Precedes (pre ++ r :: rest) d r := fun d =>
      (hb d).trans (precedes_iff hr).symm
    rw [bindingLine_eq hsrc hprec, filterMap_patch?_eq hsrc hprec, ← happ]
    simp

/-- The references whose target is not bound in time, each once. -/
theorem nodup_flatMap_late {segments : Handle → List (String ⊕ Edge)}
    (hnodup : ∀ r ∈ rest, (edgesOf (segments r)).Nodup) (hr : rest.Nodup)
    (hsrc : ∀ r ∈ rest, ∀ e ∈ edgesOf (segments r), e.source = r) :
    (rest.flatMap fun r => late order (segments r)).Nodup := by
  rw [List.nodup_flatMap]
  refine ⟨fun r hr => (hnodup r hr).filter _, hr.imp_of_mem fun ha hb hab => ?_⟩
  intro e hea heb
  have ha := hsrc _ ha e (List.mem_filter.mp hea).1
  have hb := hsrc _ hb e (List.mem_filter.mp heb).1
  exact hab (ha.symm.trans hb)

/-- What the two phases of the companion are: the order of the bindings, the definition of each
object with its edges in their places, and the edges left to the patches. -/
structure TwoPhase (out : Output) (lines patches : List String) (order : List Handle)
    (segments : Handle → List (String ⊕ Edge)) (late : Finset Edge) : Prop where
  perm : order.Perm out.tracker.order
  ids : (order.map out.tracker.id?).Perm ((List.range out.tracker.size).map some)
  /-- One line binds each object. It shows an edge by name if its target is bound before. -/
  lines_eq : lines = order.map fun r => out.lineIn order r (segments r)
  defined : ∀ r ∈ order, out.define r = .ok ((segments r).map out.segmentPiece)
  /-- Each edge of an object has one place in its definition. -/
  edges_nodup : ∀ r ∈ order, (edgesOf (segments r)).Nodup
  mem_edges : ∀ r ∈ order, ∀ e, e ∈ edgesOf (segments r) ↔ e.source = r ∧ out.IsEdge e
  mem_late : ∀ e, e ∈ late ↔
    e.source ∈ order ∧ out.IsEdge e ∧ ¬ Precedes order e.target e.source
  /-- Each edge whose target is not bound before is patched once. -/
  patches_eq : (patches : Multiset String) = late.val.map out.patchLine

theorem exists_twoPhase {lines patches : List String}
    (hr : ∀ h ∈ out.tracker.order, h < out.heap.size) (h : out.companion = .ok (lines, patches)) :
    ∃ segments late, out.TwoPhase lines patches out.order segments late := by
  have hperm := order_perm hr
  obtain ⟨hdefs, hlines⟩ := bindAll_eq [] h (by simp) (by simpa using nodup_order)
  choose! ps hps using hdefs
  have hex : ∀ r ∈ out.order, ∃ segments : List (String ⊕ Edge),
      out.define r = .ok (segments.map out.segmentPiece) ∧ (edgesOf segments).Nodup ∧
        ∀ e, e ∈ edgesOf segments ↔ e.source = r ∧ out.IsEdge e := by
    intro r hr
    obtain ⟨segments, hp, hseg⟩ := exists_segments (hps r hr)
    exact ⟨segments, hp ▸ hps r hr, hseg⟩
  choose! segments hdefine hedges hmem using hex
  have hsrc : ∀ r ∈ out.order, ∀ e ∈ edgesOf (segments r), e.source = r := fun r hr e he =>
    ((hmem r hr e).mp he).1
  obtain ⟨rfl, rfl⟩ := hlines segments hdefine hsrc
  have hnodup : (out.order.flatMap fun r => late out.order (segments r)).Nodup :=
    nodup_flatMap_late hedges nodup_order hsrc
  refine ⟨segments, ⟨_, Multiset.coe_nodup.mpr hnodup⟩, hperm, ?_, rfl, hdefine, hedges, hmem,
    fun e => ?_, rfl⟩
  · rw [← Tracker.map_id?_order]
    exact hperm.map _
  · rw [Finset.mem_mk, Multiset.mem_coe, List.mem_flatMap]
    constructor
    · rintro ⟨r, hr, he⟩
      obtain ⟨he, hp⟩ := List.mem_filter.mp he
      obtain ⟨rfl, hedge⟩ := (hmem r hr e).mp he
      exact ⟨hr, hedge, by simpa using hp⟩
    · rintro ⟨hr, hedge, hp⟩
      refine ⟨e.source, hr, List.mem_filter.mpr ⟨?_, by simpa using hp⟩⟩
      exact (hmem e.source hr e).mpr ⟨rfl, hedge⟩

/-- Two-phase emission is exact, whatever was tracked: first one line for each tracked object, then
one patch for each reference that its line could not name. -/
theorem companion_twoPhase {heap : Heap} (hc : heap.Closed) (calls : List Tracker.Call)
    (hs : ∀ h ∈ Tracker.starts calls, h < heap.size) (names : Naming)
    (ho : out = companionOutput heap (Tracker.run heap {} (calls ++ [.close])) names)
    {lines patches : List String} (h : out.companion = .ok (lines, patches)) :
    companionText heap (Tracker.run heap {} (calls ++ [.close])) names =
        .ok ("\n".intercalate (lines ++ patches), patches.length) ∧
      ∃ order segments late, out.TwoPhase lines patches order segments late := by
  refine ⟨?_, out.order, exists_twoPhase ?_ h⟩
  · subst ho
    exact bind_eq_ok.mpr ⟨(lines, patches), h, rfl⟩
  · subst ho
    intro h hh
    exact ((Tracker.mem_order_run_close hc calls hs).mp hh).1.lt hc hs

/-- A record that holds itself inside a sequence. -/
theorem companion_twoPhase_cycle :
    ∃ order segments late,
      (companionOutput ⟨#[.record [] [("list", .ref 1)], .seq [.null, .ref 0]]⟩
        (Tracker.run ⟨#[.record [] [("list", .ref 1)], .seq [.null, .ref 0]]⟩ {}
          [.addRoot (.ref 0), .close]) {}).TwoPhase
        ["export const item0 = \x7b list: [null, undefined] \x7d;"] ["item0.list[1] = item0;"]
        order segments late :=
  (companion_twoPhase (by decide) [.addRoot (.ref 0)] (by decide) {} rfl (by cbv)).2

end Comptime.Output
