import Comptime.Qualify

/-! Staged application. A generic type that is given its arguments in several steps specializes as
if it were given all of them at once: same result, same fault, same heap. -/
namespace Comptime

namespace TypeValue

/-- A generic without any arguments. -/
def bare (site : Generic) : TypeValue := { kind := .generic site }

/-- Notes the arguments one after the other; `none` leaves them to be given when the type is
specialized. -/
def applyAll (t : TypeValue) (stages : List (Option (List Item))) : TypeValue :=
  stages.foldl apply t

variable {t u : TypeValue} {site : Generic} {input : Option (List Item)}
  {stages : List (Option (List Item))} {chunks : List (List Item)}

theorem applyAll_of_generic? (ht : t.generic? = some site) :
    t.applyAll stages = { t with applications := t.applications ++ stages.map (⟨site, ·⟩) } := by
  induction stages generalizing t with
  | nil => simp [applyAll]
  | cons args stages ih =>
    have hstep : t.apply args = { t with applications := t.applications ++ [⟨site, args⟩] } := by
      simp [apply, ht]
    have hrest := ih (t := t.apply args) (by rw [hstep]; exact ht)
    rw [applyAll, List.foldl_cons, ← applyAll, hrest, hstep]
    simp

theorem applyAll_bare :
    (bare site).applyAll stages = ⟨.generic site, stages.map (⟨site, ·⟩)⟩ :=
  applyAll_of_generic? rfl

theorem awaiting_applyAll :
    ((bare site).applyAll stages).awaiting = stages.countP Option.isNone := by
  simp [applyAll_bare, awaiting, List.countP_map, Function.comp_def]

section Gathering

/-- Chunks for one generic, the latest first, make one list of arguments. -/
theorem foldl_gather (later : List Item) :
    (chunks.map (site, ·)).foldl (fun known c => gather known c.1 c.2) [(site, later)] =
      [(site, chunks.reverse.flatten ++ later)] := by
  induction chunks generalizing later with
  | nil => rfl
  | cons args chunks ih =>
    have hgather : gather [(site, later)] site args = [(site, args ++ later)] := by simp [gather]
    rw [List.map_cons, List.foldl_cons, hgather, ih]
    simp

theorem arguments?_of_chunks (h : t.chunks site input = .ok (chunks.map (site, ·))) :
    t.arguments? site input = .ok [(site, chunks.reverse.flatten)] := by
  simp only [arguments?, h, bind, Except.bind, pure, Except.pure]
  congr 1
  cases chunks with
  | nil => rfl
  | cons args chunks =>
    rw [List.map_cons, List.foldl_cons, gather, foldl_gather]
    simp

theorem arguments?_bare (args : List Item) :
    (bare site).arguments? site (some args) = .ok [(site, args)] := by
  have hchunks : (bare site).chunks site (some args) = .ok ([args].map (site, ·)) := rfl
  rw [arguments?_of_chunks hchunks]
  simp

end Gathering

section Supplied

theorem countP_isNone_map_some (chunks : List (List Item)) :
    (chunks.map some).countP Option.isNone = 0 := by
  simp [List.countP_map, Function.comp_def]

/-- All arguments in order of application. Those given last stand where an entry awaits them, or
else at the end. -/
def supplied (stages : List (Option (List Item))) (input : Option (List Item)) : List Item :=
  (stages.map fun args => args.getD (input.getD [])).flatten ++
    if stages.countP Option.isNone = 0 then input.getD [] else []

variable (h : ∀ args ∈ stages, (args.or input).isSome)
include h

theorem mapM_chunk :
    (stages.map fun args => Application.mk site args).mapM (t.chunk input) =
      .ok (stages.map fun args => (site, args.getD (input.getD []))) := by
  induction stages with
  | nil => rfl
  | cons args stages ih =>
    rw [List.forall_mem_cons] at h
    obtain ⟨given, hgiven⟩ := Option.isSome_iff_exists.mp h.1
    have hchunk : t.chunk input ⟨site, args⟩ = .ok (site, args.getD (input.getD [])) := by
      rw [← Option.getD_or, chunk, hgiven]
      rfl
    rw [List.map_cons, List.mapM_cons, hchunk, ih h.2]
    rfl

/-- The entries of a staged type give one list of arguments for its generic. -/
theorem arguments?_applyAll (hone : stages.countP Option.isNone ≤ 1) :
    ((bare site).applyAll stages).arguments? site input = .ok [(site, supplied stages input)] := by
  have hchunks : ((bare site).applyAll stages).chunks site input = .ok
      (((if stages.countP Option.isNone = 0 then input.toList else []) ++
        stages.reverse.map fun args => args.getD (input.getD [])).map (site, ·)) := by
    rw [chunks, awaiting_applyAll, if_neg (by omega), applyAll_bare, ← List.map_reverse,
      mapM_chunk fun args hargs => h args (List.mem_reverse.mp hargs)]
    simp only [bind, Except.bind, pure, Except.pure]
    split <;> simp
  rw [arguments?_of_chunks hchunks, supplied]
  cases input <;> split <;> simp

end Supplied

end TypeValue

variable {t u : TypeValue} {site : Generic} {input input' : Option (List Item)}

/-- A type counts by its generic and the arguments gathered for it alone. -/
theorem qualifyWith_congr {q : Qualifier} {chain : Chain} (ht : t.generic? = some site)
    (hu : u.generic? = some site) (h : t.arguments? site input = u.arguments? site input') :
    qualifyWith q chain t input = qualifyWith q chain u input' := by
  simp only [qualifyWith, ht, hu, h]

theorem qualifyWithin_applyAll {stages : List (Option (List Item))} (site : Generic) (depth : Nat)
    (chain : Chain) (hone : stages.countP Option.isNone ≤ 1)
    (h : ∀ args ∈ stages, (args.or input).isSome) :
    qualifyWithin depth chain ((TypeValue.bare site).applyAll stages) input =
      qualifyWithin depth chain (.bare site) (some (TypeValue.supplied stages input)) := by
  cases depth with
  | zero => rfl
  | succ depth =>
    refine qualifyWith_congr (by rw [TypeValue.applyAll_bare]; rfl) rfl ?_
    rw [TypeValue.arguments?_applyAll h hone, TypeValue.arguments?_bare]

/-- The two types with their arguments specialize alike: to the same outcome and with the same heap
left behind, within every depth of nesting and within the usual one. -/
def TypeValue.Alike (chain : Chain) (t : TypeValue) (input : Option (List Item)) (u : TypeValue)
    (input' : Option (List Item)) : Prop :=
  (∀ depth heap, qualifyWithin depth chain t input heap = qualifyWithin depth chain u input' heap) ∧
    ∀ heap, t.qualify chain input heap = u.qualify chain input' heap

theorem TypeValue.alike_applyAll {stages : List (Option (List Item))} (chain : Chain)
    (hone : stages.countP Option.isNone ≤ 1) (h : ∀ args ∈ stages, (args.or input).isSome) :
    TypeValue.Alike chain ((bare site).applyAll stages) input (bare site)
      (some (supplied stages input)) := by
  have hdepth (depth : Nat) := qualifyWithin_applyAll site depth chain hone h
  exact ⟨fun depth => congrFun (hdepth depth), congrFun (hdepth depthLimit)⟩

/-- A generic that gets its arguments in chunks specializes as if it got them at once. If all chunks
are noted on it, the arguments given last come after them; if one of its entries awaits arguments,
they come in its place. -/
theorem TypeValue.qualify_staged (site : Generic) (chain : Chain) :
    (∀ (chunks : List (List Item)) (input : Option (List Item)),
      TypeValue.Alike chain ((bare site).applyAll (chunks.map some)) input
        (bare site) (some (chunks.flatten ++ input.getD []))) ∧
      ∀ (before after : List (List Item)) (given : List Item),
        TypeValue.Alike chain ((bare site).applyAll (before.map some ++ none :: after.map some))
          (some given) (bare site) (some (before.flatten ++ given ++ after.flatten)) := by
  constructor
  · intro chunks input
    have hnone := countP_isNone_map_some chunks
    have hsupplied : supplied (chunks.map some) input = chunks.flatten ++ input.getD [] := by
      rw [supplied, if_pos hnone]
      simp [List.map_map, Function.comp_def]
    rw [← hsupplied]
    exact alike_applyAll chain (by omega) (by simp)
  · intro before after given
    have hone : (before.map some ++ none :: after.map some).countP Option.isNone = 1 := by
      rw [List.countP_append, List.countP_cons, countP_isNone_map_some, countP_isNone_map_some]
      rfl
    have hsupplied : supplied (before.map some ++ none :: after.map some) (some given) =
        before.flatten ++ given ++ after.flatten := by
      rw [supplied, if_neg (by omega)]
      simp [List.map_map, Function.comp_def]
    rw [← hsupplied]
    exact alike_applyAll chain (by omega) (by simp)

end Comptime
