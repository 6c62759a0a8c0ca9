import DocPath.Destructor.Access
import DocPath.Proofs.Equality
import DocPath.Proofs.Path.Edits
import DocPath.Proofs.Pattern.Grammar

/-! # Expressions at the end of paths

The grammar has a destructuring expression only at the end of a pattern, and a walk through a
document ends at the first one. Which edits keep it so that no segment is behind one. -/

namespace DocPath

/-! ## Lists of segments -/

/-- There is no destructuring expression in the list. -/
def OnlyKeys (segments : List Segment) : Prop := ∀ d, Segment.destructor d ∉ segments

/-- No segment is behind a destructuring expression. -/
def Terminal (segments : List Segment) : Prop :=
  ∀ front d behind, segments = front ++ .destructor d :: behind → behind = []

@[simp] theorem onlyKeys_nil : OnlyKeys [] := by
  simp [OnlyKeys]

@[simp] theorem onlyKeys_key_cons {k : Key} {rest : List Segment} :
    OnlyKeys (.key k :: rest) ↔ OnlyKeys rest := by
  simp [OnlyKeys]

@[simp] theorem not_onlyKeys_destructor_cons {d : Destructor} {rest : List Segment} :
    ¬ OnlyKeys (.destructor d :: rest) :=
  fun h => h d List.mem_cons_self

@[simp] theorem terminal_nil : Terminal [] := by
  simp [Terminal]

@[simp] theorem terminal_key_cons {k : Key} {rest : List Segment} :
    Terminal (.key k :: rest) ↔ Terminal rest := by
  constructor
  · intro h front d behind heq
    exact h (.key k :: front) d behind (by rw [heq, List.cons_append])
  · intro h front d behind heq
    cases front with
    | nil => cases heq
    | cons segment front => exact h front d behind (List.cons.inj heq).2

@[simp] theorem terminal_destructor_cons {d : Destructor} {rest : List Segment} :
    Terminal (.destructor d :: rest) ↔ rest = [] := by
  constructor
  · intro h
    exact h [] d rest rfl
  · rintro rfl front e behind heq
    cases front with
    | nil => exact (List.cons.inj heq).2.symm
    | cons segment front => simp at heq

theorem OnlyKeys.terminal {segments : List Segment} (h : OnlyKeys segments) :
    Terminal segments := by
  rintro front d behind rfl
  exact absurd (List.mem_append_right front List.mem_cons_self) (h d)

/-- What is put behind segments needs keys alone in front of it. -/
theorem terminal_append_iff {first second : List Segment} :
    Terminal (first ++ second) ↔
      (second = [] ∧ Terminal first) ∨ (OnlyKeys first ∧ Terminal second) := by
  induction first with
  | nil =>
      simp only [List.nil_append, terminal_nil, and_true, onlyKeys_nil, true_and]
      refine ⟨Or.inr, ?_⟩
      rintro (rfl | h)
      · exact terminal_nil
      · exact h
  | cons segment first ih =>
      cases segment with
      | key k => simpa using ih
      | destructor d => simp [and_comm]

theorem terminal_append_iff_of_ne_nil {first second : List Segment} (h : second ≠ []) :
    Terminal (first ++ second) ↔ OnlyKeys first ∧ Terminal second := by
  simp [terminal_append_iff, h]

theorem terminal_toList (segment : Option Segment) : Terminal segment.toList := by
  match segment with
  | none => exact terminal_nil
  | some (.key k) => simp
  | some (.destructor d) => simp

theorem Terminal.sublist {segments part : List Segment} (h : Terminal segments)
    (hpart : part.Sublist segments) : Terminal part := by
  induction hpart with
  | slnil => exact h
  | cons segment _ ih =>
      cases segment with
      | key k => exact ih (terminal_key_cons.mp h)
      | destructor d =>
          obtain rfl := terminal_destructor_cons.mp h
          exact ih terminal_nil
  | cons_cons segment hrest ih =>
      cases segment with
      | key k => exact terminal_key_cons.mpr (ih (terminal_key_cons.mp h))
      | destructor d =>
          obtain rfl := terminal_destructor_cons.mp h
          obtain rfl := List.sublist_nil.mp hrest
          exact h

/-- A walk takes in all segments of a list just if none is behind a destructuring expression. -/
theorem terminal_iff_route {segments : List Segment} : Terminal segments ↔
    (route segments).1.map .key ++ (route segments).2.toList.map .destructor = segments := by
  induction segments with
  | nil => simp [route]
  | cons segment rest ih =>
      cases segment with
      | key k => simpa [route] using ih
      | destructor d => simp [route, eq_comm]

/-! ## What patterns contribute -/

theorem onlyKeys_filterMap_indices (indices : List String) :
    OnlyKeys ((indices.map (Step.name · true false)).filterMap Step.segment?) := by
  induction indices with
  | nil => exact onlyKeys_nil
  | cons index indices ih => simpa [Step.segment?] using ih

theorem Chain.WellFormed.terminal {chain : Chain} (h : chain.WellFormed) :
    Terminal (chain.filterMap Step.segment?) := by
  have hrest : ∀ {after : Chain}, (after ≠ [] → Terminal (after.filterMap Step.segment?)) →
      Terminal (after.filterMap Step.segment?) := by
    intro after hafter
    by_cases hnil : after = []
    · rw [hnil]
      exact terminal_nil
    · exact hafter hnil
  induction h with
  | @name _ indices after _ _ _ ih =>
      simp only [List.filterMap_cons, Step.segment?, List.filterMap_append, terminal_key_cons]
      exact terminal_append_iff.mpr (Or.inr ⟨onlyKeys_filterMap_indices indices, hrest ih⟩)
  | @expandedIndex _ indices last after _ _ _ _ ih =>
      simp only [List.filterMap_cons, Step.segment?, List.filterMap_append, terminal_key_cons]
      refine terminal_append_iff.mpr (Or.inr ⟨onlyKeys_filterMap_indices indices, ?_⟩)
      exact terminal_key_cons.mpr (hrest ih)
  | expandedName _ _ ih | verbatim _ _ ih => exact terminal_key_cons.mpr (hrest ih)
  | any _ ih | range _ _ ih | group _ _ _ _ ih =>
      have hafter := hrest ih
      exact hafter
  | destructor => simp [Step.segment?]

/-- An accepted text has destructuring expressions only at its end. -/
theorem Chain.terminal_segments {text : String} {chain : Chain}
    (h : Chain.parse text = .ok chain) : Terminal chain.segments := by
  unfold Chain.segments
  split
  · exact terminal_nil
  · by_cases hne : chain = []
    · rw [hne]
      exact terminal_nil
    · exact (Chain.wellFormed_of_parse h hne).terminal

namespace Path

theorem terminal_ofText {text : String} {path : Path} (h : ofText text = .ok path) :
    Terminal path.segments := by
  obtain ⟨chain, hparse, ⟨-, rfl⟩ | ⟨-, rfl⟩⟩ := ofText_cases h
  · exact Chain.terminal_segments hparse
  · exact terminal_nil

theorem terminal_normalizeText (raw : String) : Terminal (normalizeText raw) := by
  obtain ⟨chain, hparse, -, hsegments⟩ | ⟨-, hraw⟩ := normalizeText_cases raw
  · rw [hsegments]
    exact Chain.terminal_segments hparse
  · rw [hraw]
    simp

theorem terminal_normalizeSegment (segment : Segment) : Terminal (normalizeSegment segment) := by
  match segment with
  | .key (.name raw) => exact terminal_normalizeText raw
  | .key (.index n) => simp [normalizeSegment]
  | .destructor d => simp [normalizeSegment]

end Path

/-- In what a pattern contributes, no segment is behind a destructuring expression: the path it
is has none, or of the list it is, what contributes an expression has nothing behind it that
contributes anything. -/
def Pattern.Orderly : Pattern → Prop
  | .text _ => True
  | .segments raw => ∀ front segment behind, raw = front ++ segment :: behind →
      OnlyKeys (Path.normalizeSegment segment) ∨ behind.flatMap Path.normalizeSegment = []
  | .path p => Terminal p.segments

theorem orderly_cons_iff {segment : Segment} {raw : List Segment} :
    (Pattern.segments (segment :: raw)).Orderly ↔
      (OnlyKeys (Path.normalizeSegment segment) ∨ raw.flatMap Path.normalizeSegment = []) ∧
        (Pattern.segments raw).Orderly := by
  constructor
  · intro h
    refine ⟨h [] segment raw rfl, ?_⟩
    intro front next behind heq
    exact h (segment :: front) next behind (by rw [heq, List.cons_append])
  · rintro ⟨hfirst, hrest⟩ front next behind heq
    cases front with
    | nil =>
        cases heq
        exact hfirst
    | cons _ front => exact hrest front next behind (List.cons.inj heq).2

theorem terminal_flatMap_iff {raw : List Segment} :
    Terminal (raw.flatMap Path.normalizeSegment) ↔ (Pattern.segments raw).Orderly := by
  induction raw with
  | nil => simp [Pattern.Orderly]
  | cons segment raw ih =>
      have hsegment := Path.terminal_normalizeSegment segment
      rw [List.flatMap_cons, terminal_append_iff, orderly_cons_iff, ← ih]
      constructor
      · rintro (⟨hnil, -⟩ | ⟨hkeys, hraw⟩)
        · exact ⟨Or.inr hnil, by rw [hnil]; exact terminal_nil⟩
        · exact ⟨Or.inl hkeys, hraw⟩
      · rintro ⟨hkeys | hnil, hraw⟩
        · exact Or.inr ⟨hkeys, hraw⟩
        · exact Or.inl ⟨hnil, hsegment⟩

theorem terminal_contribution_iff {pattern : Pattern} :
    Terminal (Path.contribution pattern) ↔ pattern.Orderly := by
  cases pattern with
  | text text => exact iff_of_true (Path.terminal_normalizeText text) trivial
  | segments raw => exact terminal_flatMap_iff
  | path p => exact Iff.rfl

theorem terminal_compile_iff {pattern : Pattern} {path : Path}
    (h : Path.compile pattern = .ok path) : Terminal path.segments ↔ pattern.Orderly := by
  cases pattern with
  | text text => exact iff_of_true (Path.terminal_ofText h) trivial
  | segments raw =>
      cases h
      exact terminal_flatMap_iff
  | path p =>
      cases h
      exact Iff.rfl

/-! ## Edits -/

/-- The edit puts nothing behind a destructuring expression, neither one of the segments nor one
it brings along. -/
def Edit.Fits (segments : List Segment) : Edit → Prop
  | .push pattern | .concat pattern =>
      Path.contribution pattern = [] ∨ (OnlyKeys segments ∧ pattern.Orderly)
  | .splice start count items =>
      let inserted := items.flatMap Path.contribution
      inserted = [] ∨ (OnlyKeys (segments.take start) ∧ Terminal inserted ∧
        ((segments.drop start).drop count ≠ [] → OnlyKeys inserted))
  | .nearestChild target => target.segments.length ≤ segments.length ∨ OnlyKeys segments
  | .pop | .parent | .slice .. => True

theorem Terminal.append_iff {segments more : List Segment} (h : Terminal segments) :
    Terminal (segments ++ more) ↔ more = [] ∨ (OnlyKeys segments ∧ Terminal more) := by
  rw [terminal_append_iff, and_iff_left h]

/-- Segments in the middle of others need keys in front of them, and are keys themselves unless
they come last. -/
theorem Terminal.insert_iff {front inserted behind : List Segment}
    (h : Terminal (front ++ behind)) :
    Terminal (front ++ inserted ++ behind) ↔
      inserted = [] ∨ (OnlyKeys front ∧ Terminal inserted ∧ (behind ≠ [] → OnlyKeys inserted)) := by
  by_cases hnil : inserted = []
  · simp [hnil, h]
  · have hbehind : Terminal behind := h.sublist (List.sublist_append_right ..)
    rw [List.append_assoc, terminal_append_iff_of_ne_nil (by simp [hnil])]
    simp only [hnil, false_or, and_congr_right_iff]
    intro _
    rw [terminal_append_iff, and_iff_left hbehind]
    constructor
    · rintro (⟨hlast, hinserted⟩ | hkeys)
      · exact ⟨hinserted, fun hne => absurd hlast hne⟩
      · exact ⟨hkeys.terminal, fun _ => hkeys⟩
    · rintro ⟨hinserted, hkeys⟩
      by_cases hlast : behind = []
      · exact Or.inl ⟨hlast, hinserted⟩
      · exact Or.inr (hkeys hlast)

theorem take_append_drop_drop_sublist (segments : List Segment) (start count : Nat) :
    (segments.take start ++ (segments.drop start).drop count).Sublist segments := by
  have hbehind := List.drop_sublist count (segments.drop start)
  simpa using hbehind.append_left (segments.take start)

/-- An edit keeps the order just if it fits. -/
theorem Terminal.edited_iff {segments : List Segment} (h : Terminal segments) (edit : Edit) :
    Terminal (edit.edited segments) ↔ edit.Fits segments := by
  cases edit with
  | push pattern | concat pattern =>
      simp only [Edit.edited, Edit.Fits, h.append_iff, terminal_contribution_iff]
  | splice start count items =>
      have hrest := h.sublist (take_append_drop_drop_sublist segments start count)
      exact hrest.insert_iff
  | pop | parent =>
      exact iff_of_true (h.sublist (List.dropLast_sublist segments)) trivial
  | slice low high =>
      refine iff_of_true (h.sublist ?_) trivial
      exact (List.drop_sublist ..).trans (List.take_sublist ..)
  | nearestChild target =>
      have hnil : (target.segments[segments.length]?).toList = [] ↔
          target.segments.length ≤ segments.length := by
        rw [Option.toList_eq_nil_iff, List.getElem?_eq_none_iff]
      simp only [Edit.edited, Edit.Fits, h.append_iff, hnil, terminal_toList, and_true]

/-- In a run of edits no segment ever comes to be behind a destructuring expression just if each
edit fits the path it is made to. -/
theorem terminal_stages_iff {entire : String} {segments : List Segment} (h : Terminal segments)
    (edits : List Edit) :
    let stages := (Path.literal entire segments).stages edits
    (∀ stage ∈ stages, Terminal stage.segments) ↔
      ∀ step ∈ stages.zip edits, step.2.Fits step.1.segments := by
  intro stages
  induction edits generalizing entire segments with
  | nil => exact iff_of_true (by simpa [stages, Path.stages, Path.segments] using h) (by simp)
  | cons edit rest ih =>
      obtain ⟨entire', hnext⟩ := edit.next_literal entire segments
      have hstages : stages = .literal entire segments ::
          (Path.literal entire' (edit.edited segments)).stages rest := by
        rw [← hnext]
        rfl
      rw [hstages, List.zip_cons_cons, List.forall_mem_cons, List.forall_mem_cons]
      by_cases hfits : edit.Fits segments
      · have hedited := (h.edited_iff edit).mpr hfits
        exact (and_iff_right h).trans ((ih hedited).trans (and_iff_right hfits).symm)
      · refine iff_of_false ?_ fun hall => hfits hall.1
        rintro ⟨-, hall⟩
        apply hfits ∘ (h.edited_iff edit).mp
        exact hall _ (Path.mem_stages _ rest)

namespace Path

/-- A path that is compiled and edited has destructuring expressions only at its end, at all
times, just if what it is compiled from is orderly and each edit fits. That is when a walk takes
in all segments of each of the paths. -/
theorem terminal_stages_iff_fits {pattern : Pattern} {path : Path}
    (hcompile : compile pattern = .ok path) (hliteral : path.isMatch = false)
    (edits : List Edit) :
    let stages := path.stages edits
    ((∀ stage ∈ stages, Terminal stage.segments) ↔
      pattern.Orderly ∧ ∀ step ∈ stages.zip edits, step.2.Fits step.1.segments) ∧
    ∀ stage ∈ stages, Terminal stage.segments ↔
      (route stage.segments).1.map .key ++ (route stage.segments).2.toList.map .destructor =
        stage.segments := by
  intro stages
  refine ⟨?_, fun stage _ => terminal_iff_route⟩
  have horderly := terminal_compile_iff hcompile
  cases path with
  | pattern text chain => cases hliteral
  | literal entire segments =>
      constructor
      · intro hall
        have hpath := hall _ (mem_stages _ edits)
        exact ⟨horderly.mp hpath, (terminal_stages_iff hpath edits).mp hall⟩
      · rintro ⟨hpattern, hfits⟩
        exact (terminal_stages_iff (horderly.mpr hpattern) edits).mpr hfits

/-- An expression is taken off the end, another one comes with a list of names, and the front is
written anew. -/
theorem terminal_stages_around_expressions :
    let edits : List Edit := [.pop, .push (.segments [.key (.name "c.d"), .key (.name "{e}")]),
      .splice 0 1 [.text "x[0]"]]
    let path : Path := ofSegments [.key (.name "a"),
      .destructor ⟨.object [.plain "b"], "{b}"⟩]
    compile (.text "a.{b}") = .ok path ∧ path.isMatch = false ∧
      path.stages edits = [path, ofSegments [.key (.name "a")],
        ofSegments [.key (.name "a"), .key (.name "c"), .key (.name "d"),
          .destructor ⟨.object [.plain "e"], "{e}"⟩],
        ofSegments [.key (.name "x"), .key (.index 0), .key (.name "c"), .key (.name "d"),
          .destructor ⟨.object [.plain "e"], "{e}"⟩]] ∧
      (∀ step ∈ (path.stages edits).zip edits, step.2.Fits step.1.segments) ∧
      ∀ stage ∈ path.stages edits, Terminal stage.segments := by
  intro edits path
  have hcompile : compile (.text "a.{b}") = .ok path := by decide +kernel
  have hstages : path.stages edits = [path, ofSegments [.key (.name "a")],
      ofSegments [.key (.name "a"), .key (.name "c"), .key (.name "d"),
        .destructor ⟨.object [.plain "e"], "{e}"⟩],
      ofSegments [.key (.name "x"), .key (.index 0), .key (.name "c"), .key (.name "d"),
        .destructor ⟨.object [.plain "e"], "{e}"⟩]] := by decide +kernel
  have hpushed : contribution (.segments [.key (.name "c.d"), .key (.name "{e}")]) =
      [.key (.name "c"), .key (.name "d"),
        .destructor ⟨.object [.plain "e"], "{e}"⟩] := by decide +kernel
  have hspliced : [Pattern.text "x[0]"].flatMap contribution =
      [.key (.name "x"), .key (.index 0)] := by decide +kernel
  have hfits : ∀ step ∈ (path.stages edits).zip edits, step.2.Fits step.1.segments := by
    rw [hstages]
    simp only [edits, List.zip_cons_cons, List.zip_nil_right, List.forall_mem_cons]
    refine ⟨trivial, Or.inr ⟨by simp [ofSegments, segments], ?_⟩, Or.inr ?_,
      List.forall_mem_nil _⟩
    · rw [← terminal_contribution_iff, hpushed]
      simp
    · simp [hspliced]
  have hterminal := (terminal_stages_iff_fits hcompile rfl edits).1.mpr ⟨trivial, hfits⟩
  exact ⟨hcompile, rfl, hstages, hfits, hterminal⟩

/-- What is put behind an expression is not looked at. -/
theorem not_terminal_behind_expression :
    let d : Destructor := ⟨.object [.plain "a"], "{a}"⟩
    let path : Path := ofSegments [.destructor d]
    let longer : Path := ofSegments [.destructor d, .key (.name "b")]
    compile (.text "{a}") = .ok path ∧ path.isMatch = false ∧
      longer ∈ path.stages [.push (.text "b")] ∧ ¬ Terminal longer.segments ∧
      ∀ doc : Document, doc.getAt longer.segments = doc.getAt path.segments := by
  intro d path longer
  have hcompile : compile (.text "{a}") = .ok path := by decide +kernel
  have hstages : path.stages [.push (.text "b")] = [path, longer] := by decide +kernel
  refine ⟨hcompile, rfl, by simp [hstages], ?_, fun doc => rfl⟩
  simp [longer, ofSegments, segments]

end Path

end DocPath
