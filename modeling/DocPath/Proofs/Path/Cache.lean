import DocPath.Path.Live
import DocPath.Proofs.Equality
import DocPath.Proofs.Path.View

/-! # The cache of compiled paths

Lists of segments are remembered by how they render. The path recalled for a list is the one
that the list stands for, as long as the destructuring expressions in the lists are read back
from their sources. -/

namespace DocPath

/-! ## Memos -/

namespace Memo

variable {κ α : Type} [DecidableEq κ]

/-- All that a memo recalls is true of its key. -/
def Keeps (m : Memo κ α) (p : κ → α → Prop) : Prop :=
  ∀ key value, m.find? key = some value → p key value

theorem keeps_empty (capacity : Nat) (p : κ → α → Prop) : (empty capacity).Keeps p := by
  intro key value h
  cases h

/-- What is found after storing was stored just now, or was there before. -/
theorem find?_store_eq_some {m : Memo κ α} {key key' : κ} {value value' : α}
    (h : (m.store key value).find? key' = some value') :
    (key' = key ∧ value' = value) ∨ m.find? key' = some value' := by
  simp only [find?, store, Option.map_eq_some_iff] at h ⊢
  obtain ⟨entry, hfound, rfl⟩ := h
  have hentry := (List.take_prefix _ _).find?_eq_some hfound
  by_cases hkey : key = key'
  · rw [List.find?_cons_of_pos (by simpa using hkey)] at hentry
    cases hentry
    exact Or.inl ⟨hkey.symm, rfl⟩
  · rw [List.find?_cons_of_neg (by simpa using hkey), List.find?_filter] at hentry
    refine Or.inr ⟨entry, ?_, rfl⟩
    rw [← hentry]
    congr 1
    funext other
    by_cases hother : other.1 = key' <;> simp [hother, Ne.symm hkey]

theorem find?_store_self {m : Memo κ α} (hcapacity : 0 < m.capacity) {key : κ} {value : α} :
    (m.store key value).find? key = some value := by
  simp only [find?, store, List.take_cons hcapacity]
  rw [List.find?_cons_of_pos (by simp)]
  rfl

theorem Keeps.store {m : Memo κ α} {p : κ → α → Prop} (hm : m.Keeps p) {key : κ} {value : α}
    (h : p key value) : (m.store key value).Keeps p := by
  intro key' value' hfound
  rcases find?_store_eq_some hfound with ⟨rfl, rfl⟩ | hbefore
  · exact h
  · exact hm key' value' hbefore

end Memo

/-! ## Computations that compile -/

namespace Cached

variable {α β : Type}

/-- What a computation answers, started with a cache. -/
def answer (action : Cached α) (cache : PathCache) : Except PathError α :=
  (action.run.run cache).1

/-- The cache that a computation leaves. -/
def left (action : Cached α) (cache : PathCache) : PathCache := (action.run.run cache).2

theorem answer_bind (action : Cached α) (next : α → Cached β) (cache : PathCache) :
    (action >>= next).answer cache =
      (action.answer cache).bind fun a => (next a).answer (action.left cache) := by
  unfold answer left
  rw [ExceptT.run_bind, StateT.run_bind]
  rcases action.run.run cache with ⟨fault | a, left⟩
  · rfl
  · rfl

/-- What compiling a pattern gives without a cache. -/
def alone (pattern : Pattern) : Except PathError Path :=
  (Path.compile pattern).mapError .parse

/-- What compiling a pattern through a cache can answer, and which cache it can leave. -/
inductive Outcome (pattern : Pattern) (cache : PathCache) :
    Except PathError Path → PathCache → Prop where
  | recalled {key : CacheKey} {path : Path} : pattern.cacheKey? = some key →
      cache.find? key = some path → Outcome pattern cache (.ok path) (cache.store key path)
  | stored {key : CacheKey} {path : Path} : pattern.cacheKey? = some key →
      Path.compile pattern = .ok path → Outcome pattern cache (.ok path) (cache.store key path)
  | unkeyed {path : Path} : Path.compile pattern = .ok path →
      Outcome pattern cache (.ok path) cache
  | refused {fault : ParseError} : Path.compile pattern = .error fault →
      Outcome pattern cache (.error (.parse fault)) cache

theorem run_compile {pattern : Pattern} {key : CacheKey} (hkey : pattern.cacheKey? = some key)
    (cache : PathCache) : (compile pattern).run.run cache =
      match Memo.find? cache key with
      | some path => (.ok path, cache.store key path)
      | none =>
        match Path.compile pattern with
        | .ok path => (.ok path, cache.store key path)
        | .error fault => (.error (.parse fault), cache) := by
  unfold compile
  rw [hkey]
  change StateT.run (ExceptT.run (match Memo.find? cache key with | some _ => _ | none => _)) _ = _
  cases Memo.find? cache key with
  | some path => rfl
  | none =>
      cases Path.compile pattern with
      | ok path => rfl
      | error fault => rfl

theorem outcome_compile (pattern : Pattern) (cache : PathCache) :
    Outcome pattern cache ((compile pattern).answer cache) ((compile pattern).left cache) := by
  unfold answer left
  cases hkey : pattern.cacheKey? with
  | none =>
      unfold compile
      rw [hkey]
      cases hcompile : Path.compile pattern with
      | ok path => exact .unkeyed hcompile
      | error fault => exact .refused hcompile
  | some key =>
      rw [run_compile hkey]
      cases hfound : Memo.find? cache key with
      | some path => exact .recalled hkey hfound
      | none =>
          cases hcompile : Path.compile pattern with
          | ok path => exact .stored hkey hcompile
          | error fault => exact .refused hcompile

/-- One compilation keeps what is true of all paths in the cache, if it is true of what the
pattern is compiled to. -/
theorem Outcome.keeps {p : CacheKey → Path → Prop} {pattern : Pattern} {cache left : PathCache}
    {result : Except PathError Path} (h : Outcome pattern cache result left) (hc : cache.Keeps p)
    (hp : ∀ key path, pattern.cacheKey? = some key → Path.compile pattern = .ok path →
      p key path) : left.Keeps p := by
  cases h with
  | recalled hkey hfound => exact hc.store (hc _ _ hfound)
  | stored hkey hcompile => exact hc.store (hp _ _ hkey hcompile)
  | unkeyed _ => exact hc
  | refused _ => exact hc

/-! ## Sequences of compilations -/

/-- The answers to patterns that are compiled one after the other. -/
def answers (cache : PathCache) : List Pattern → List (Except PathError Path)
  | [] => []
  | pattern :: rest => (compile pattern).answer cache :: answers ((compile pattern).left cache) rest

/-- The cache behind them. -/
def after (cache : PathCache) : List Pattern → PathCache
  | [] => cache
  | pattern :: rest => after ((compile pattern).left cache) rest

theorem keeps_after {p : CacheKey → Path → Prop} {patterns : List Pattern} {cache : PathCache}
    (hc : cache.Keeps p) (hp : ∀ pattern ∈ patterns, ∀ key path, pattern.cacheKey? = some key →
      Path.compile pattern = .ok path → p key path) : (after cache patterns).Keeps p := by
  induction patterns generalizing cache with
  | nil => exact hc
  | cons pattern rest ih =>
      obtain ⟨hpattern, hrest⟩ := List.forall_mem_cons.mp hp
      exact ih ((outcome_compile pattern cache).keeps hc hpattern) hrest

end Cached

/-! ## What a key stands for -/

theorem joinSegments_singleton (segment : Segment) : joinSegments [segment] = segment.render := by
  simp [joinSegments]

/-- A key stands for what its text is compiled to, or for its texts taken as names. -/
def CacheKey.compile : CacheKey → Except ParseError Path
  | .text t => Path.ofText t
  | .segments rendered =>
      .ok (.literal (".".intercalate rendered) (rendered.flatMap Path.normalizeText))

/-- Texts and compiled paths are always recalled as they are. -/
def Pattern.ReadsBack : Pattern → Prop
  | .segments raw => ∀ segment ∈ raw, segment.ReadsBack
  | .text _ | .path _ => True

theorem compile_view {pattern : Pattern} (h : pattern.ReadsBack) {key : CacheKey}
    (hkey : pattern.cacheKey? = some key) :
    (Path.compile pattern).map Path.view = key.compile.map Path.view := by
  cases pattern with
  | text text =>
      cases hkey
      rfl
  | path path => cases hkey
  | segments raw =>
      cases hkey
      have hviews : (raw.flatMap Path.normalizeSegment).map Segment.view =
          ((raw.map Segment.render).flatMap Path.normalizeText).map Segment.view := by
        rw [List.flatMap_map, List.map_flatMap, List.map_flatMap, List.flatMap_def,
          List.flatMap_def,
          List.map_congr_left fun segment hs => normalizeSegment_view (h segment hs)]
      exact congrArg (fun views => Except.ok (PathView.literal (joinSegments raw) views)) hviews

/-- Each path in the cache is the one that its key stands for. -/
def PathCache.Faithful (cache : PathCache) : Prop :=
  cache.Keeps fun key path => key.compile.map Path.view = .ok path.view

namespace Cached

theorem key_compile_view {pattern : Pattern} (h : pattern.ReadsBack) (key : CacheKey) (path : Path)
    (hkey : pattern.cacheKey? = some key) (hcompile : Path.compile pattern = .ok path) :
    key.compile.map Path.view = .ok path.view := by
  rw [← compile_view h hkey, hcompile]
  rfl

theorem faithful_after {patterns : List Pattern} (h : ∀ pattern ∈ patterns, pattern.ReadsBack) :
    (after .empty patterns).Faithful :=
  keeps_after (Memo.keeps_empty _ _) fun pattern hmem => key_compile_view (h pattern hmem)

/-- A faithful cache answers what compiling answers alone. -/
theorem answer_compile_view {cache : PathCache} (hc : cache.Faithful) {pattern : Pattern}
    (h : pattern.ReadsBack) :
    ((compile pattern).answer cache).map Path.view = (alone pattern).map Path.view := by
  have houtcome := outcome_compile pattern cache
  generalize (compile pattern).left cache = left at houtcome
  generalize (compile pattern).answer cache = result at houtcome ⊢
  unfold alone
  cases houtcome with
  | recalled hkey hfound =>
      have hview := (compile_view h hkey).trans (hc _ _ hfound)
      cases hcompile : Path.compile pattern with
      | ok path =>
          rw [hcompile] at hview
          injection hview with hview
          exact congrArg Except.ok hview.symm
      | error fault =>
          rw [hcompile] at hview
          cases hview
  | stored _ hcompile | unkeyed hcompile =>
      rw [hcompile]
      rfl
  | refused hcompile =>
      rw [hcompile]
      rfl

theorem answers_view {patterns : List Pattern} (h : ∀ pattern ∈ patterns, pattern.ReadsBack)
    {cache : PathCache} (hc : cache.Faithful) :
    (answers cache patterns).map (·.map Path.view) =
      patterns.map fun pattern => (alone pattern).map Path.view := by
  induction patterns generalizing cache with
  | nil => rfl
  | cons pattern rest ih =>
      obtain ⟨hpattern, hrest⟩ := List.forall_mem_cons.mp h
      rw [answers, List.map_cons, List.map_cons, answer_compile_view hc hpattern,
        ih hrest ((outcome_compile pattern cache).keeps hc (key_compile_view hpattern))]

/-- What is done with a path through its view does not depend on the cache. -/
theorem answer_bind_congr {β : Type} {next : Path → Cached β}
    (hnext : ∀ path path' : Path, path.view = path'.view → ∀ cache cache',
      (next path).answer cache = (next path').answer cache')
    {pattern : Pattern} (h : pattern.ReadsBack) {cache cache' : PathCache}
    (hc : cache.Faithful) (hc' : cache'.Faithful) :
    (compile pattern >>= next).answer cache = (compile pattern >>= next).answer cache' := by
  have hview := (answer_compile_view hc h).trans (answer_compile_view hc' h).symm
  rw [answer_bind, answer_bind]
  cases hanswer : (compile pattern).answer cache with
  | error fault =>
      cases hanswer' : (compile pattern).answer cache' with
      | error fault' =>
          rw [hanswer, hanswer'] at hview
          injection hview with hview
          exact congrArg Except.error hview
      | ok path' =>
          rw [hanswer, hanswer'] at hview
          cases hview
  | ok path =>
      cases hanswer' : (compile pattern).answer cache' with
      | error fault' =>
          rw [hanswer, hanswer'] at hview
          cases hview
      | ok path' =>
          rw [hanswer, hanswer'] at hview
          injection hview with hview
          exact hnext path path' hview _ _

/-! ## Accesses and matches -/

variable {pattern : Pattern} {cache : PathCache}

theorem access_answer_eq {β : Type} {access : List Segment → β}
    (haccess : ∀ segments segments', segments.map Segment.view = segments'.map Segment.view →
      access segments = access segments') (operation : Operation) (h : pattern.ReadsBack)
    (hc : cache.Faithful) :
    let action : Cached β := do
      let path ← compile pattern
      let segments ← path.literalSegments operation
      return access segments
    action.answer cache = action.answer .empty := by
  refine answer_bind_congr ?_ h hc (Memo.keeps_empty _ _)
  intro path path' hview cache cache'
  cases path with
  | literal entire segments =>
      obtain ⟨segments', rfl, hviews⟩ := Path.view_literal_eq_iff.mp hview
      exact congrArg Except.ok (haccess segments segments' hviews)
  | pattern text chain =>
      obtain rfl := Path.view_pattern_eq_iff.mp hview
      rfl

theorem matchRecord_answer_eq (h : pattern.ReadsBack) (hc : cache.Faithful) (live : LivePath) :
    (live.matchRecord pattern).answer cache = (live.matchRecord pattern).answer .empty := by
  refine answer_bind_congr ?_ h hc (Memo.keeps_empty _ _)
  intro path path' hview cache cache'
  obtain ⟨hkey, hchain⟩ := Path.cacheKey_of_view hview
  have hmatch := (Path.matchRecord_of_cacheKey hkey hchain live.path).1
  simp only [hkey, hmatch]
  cases live.records.find? path'.cacheKey with
  | some record => rfl
  | none =>
      cases live.path.matchRecord path' with
      | ok record => rfl
      | error fault => rfl

theorem includes_answer_eq (h : pattern.ReadsBack) (hc : cache.Faithful) (live : LivePath) :
    (live.includes pattern).answer cache = (live.includes pattern).answer .empty := by
  refine answer_bind_congr ?_ h hc (Memo.keeps_empty _ _)
  intro path path' hview cache cache'
  cases path with
  | pattern text chain =>
      obtain rfl := Path.view_pattern_eq_iff.mp hview
      rfl
  | literal entire segments =>
      obtain ⟨hkey, hchain⟩ := Path.cacheKey_of_view hview
      have hincludes := (Path.matchRecord_of_cacheKey hkey hchain live.path).2
      obtain ⟨segments', rfl, -⟩ := Path.view_literal_eq_iff.mp hview
      simp only [hkey, hincludes]
      cases live.inclusions.find? (Path.cacheKey (.literal entire segments')) with
      | some included => rfl
      | none =>
          cases live.path.includes (.literal entire segments') with
          | ok included => rfl
          | error fault => rfl

/-- Whatever has been compiled before, compiling answers what it answers alone, and so do the
accesses and matches that compile, if the destructuring expressions in lists are read back from
their sources. -/
theorem answers_eq_alone {patterns : List Pattern} (h : ∀ pattern ∈ patterns, pattern.ReadsBack) :
    (answers .empty patterns).map (·.map Path.view) =
        patterns.map (fun pattern => (alone pattern).map Path.view) ∧
      ∀ pattern : Pattern, pattern.ReadsBack → ∀ (doc value : Document) (start : Nat)
          (live : LivePath),
        let cache := after .empty patterns
        (doc.getIn pattern).answer cache = (doc.getIn pattern).answer .empty ∧
          (doc.setIn pattern value).answer cache = (doc.setIn pattern value).answer .empty ∧
          (doc.deleteIn pattern).answer cache = (doc.deleteIn pattern).answer .empty ∧
          (doc.existIn pattern start).answer cache = (doc.existIn pattern start).answer .empty ∧
          (live.matchRecord pattern).answer cache = (live.matchRecord pattern).answer .empty ∧
          (live.includes pattern).answer cache = (live.includes pattern).answer .empty := by
  refine ⟨answers_view h (Memo.keeps_empty _ _), ?_⟩
  intro pattern hp doc value start live cache
  have hc : cache.Faithful := faithful_after h
  exact ⟨access_answer_eq (fun _ _ hviews => Document.getAt_of_view hviews doc) .getIn hp hc,
    access_answer_eq (fun _ _ hviews => Document.setAt_of_view hviews doc value) .setIn hp hc,
    access_answer_eq (fun _ _ hviews => Document.deleteAt_of_view hviews doc) .deleteIn hp hc,
    access_answer_eq (fun _ _ hviews => Document.existsAt_of_view hviews doc start) .existIn hp hc,
    matchRecord_answer_eq hp hc live, includes_answer_eq hp hc live⟩

/-- A list with an expression, then the list of names that renders alike. -/
theorem answers_eq_alone_of_expression_and_names :
    let d : Destructor := ⟨.object [.plain "a", .bound "b" (.name "c")], "{a,b:c}"⟩
    let spread : Pattern := .segments [.destructor d, .key (.name "3")]
    let named : Pattern := .segments [.key (.name "{a,b:c}"), .key (.index 3)]
    (∀ pattern ∈ [spread, named], pattern.ReadsBack) ∧
      (answers .empty [spread, named]).map (·.map Path.view) =
        [spread, named].map (fun pattern => (alone pattern).map Path.view) ∧
      ∀ doc : Document, (doc.getIn named).answer (after .empty [spread, named]) =
        (doc.getIn named).answer .empty := by
  intro d spread named
  have hd : d.ReadsBack := ⟨_, by decide +kernel, rfl, rfl⟩
  have hspread : spread.ReadsBack := by simp [spread, Pattern.ReadsBack, Segment.ReadsBack, hd]
  have hnamed : named.ReadsBack := by
    simp [named, Pattern.ReadsBack, Segment.ReadsBack, Numeral.wordLimit, UInt64.size]
  have h : ∀ pattern ∈ [spread, named], pattern.ReadsBack :=
    List.forall_mem_cons.mpr ⟨hspread, List.forall_mem_singleton.mpr hnamed⟩
  obtain ⟨hviews, haccess⟩ := answers_eq_alone h
  exact ⟨h, hviews, fun doc => (haccess named hnamed doc doc 0 (.fresh (.ofSegments []))).1⟩

/-- The second list finds what was compiled for the first. -/
theorem answers_expression_and_name (d : Destructor) :
    answers .empty [.segments [.destructor d], .segments [.key (.name d.source)]] =
      [.ok (.literal d.source [.destructor d]), .ok (.literal d.source [.destructor d])] := by
  have hcompile : Path.compile (.segments [.destructor d]) =
      .ok (.literal d.source [.destructor d]) := by
    rw [Path.compile, joinSegments_singleton]
    rfl
  have hspread : Pattern.cacheKey? (.segments [.destructor d]) = some (.segments [d.source]) := rfl
  have hnamed : Pattern.cacheKey? (.segments [.key (.name d.source)]) =
      some (.segments [d.source]) := rfl
  have hfirst : Memo.find? PathCache.empty (.segments [d.source]) = none := rfl
  have hsecond (path : Path) : Memo.find? (Memo.store PathCache.empty (.segments [d.source]) path)
      (.segments [d.source]) = some path := Memo.find?_store_self (by decide)
  simp only [answers, answer, left, run_compile hspread, run_compile hnamed, hfirst, hcompile,
    hsecond]

/-- The hypothesis cannot be dropped: an expression shares the cache with the name that spells
its source just if it is read back. -/
theorem answers_name_eq_alone_iff {d : Destructor} :
    let patterns : List Pattern := [.segments [.destructor d], .segments [.key (.name d.source)]]
    (answers .empty patterns).map (·.map Path.view) =
        patterns.map (fun pattern => (alone pattern).map Path.view) ↔ d.ReadsBack := by
  have hspread : (alone (.segments [.destructor d])).map Path.view =
      .ok (.literal d.source [Segment.view (.destructor d)]) := by
    rw [alone, Path.compile, joinSegments_singleton]
    rfl
  have hnamed : (alone (.segments [.key (.name d.source)])).map Path.view =
      .ok (.literal d.source ((Path.normalizeText d.source).map Segment.view)) := by
    have hnormal : [Segment.key (.name d.source)].flatMap Path.normalizeSegment =
        Path.normalizeText d.source := List.flatMap_singleton _ _
    rw [alone, Path.compile, hnormal, joinSegments_singleton]
    rfl
  intro patterns
  rw [answers_expression_and_name, readsBack_iff]
  simp only [patterns, List.map_cons, List.map_nil, hspread, hnamed]
  simp [Except.map, Path.view, eq_comm]

/-- `[ [x]]` is read as an array in an array, but its source `[[x]]` spells the name `x`. -/
theorem answers_ne_alone_of_spaced_expression :
    let d : Destructor := ⟨.array [.nested (.array [.name "x"])], "[[x]]"⟩
    let spread : Pattern := .segments [.destructor d]
    let named : Pattern := .segments [.key (.name d.source)]
    Chain.parse "[ [x]]" = .ok [.destructor d] ∧
      alone named = .ok (.literal "[[x]]" [.key (.name "x")]) ∧
      answers .empty [spread, named] =
        [.ok (.literal "[[x]]" [.destructor d]), .ok (.literal "[[x]]" [.destructor d])] ∧
      (answers .empty [spread, named]).map (·.map Path.view) ≠
        [spread, named].map (fun pattern => (alone pattern).map Path.view) := by
  intro d spread named
  have hparse : Chain.parse "[ [x]]" = .ok [.destructor d] := by decide +kernel
  have halone : alone named = .ok (.literal "[[x]]" [.key (.name "x")]) := by decide +kernel
  have hanswers := answers_expression_and_name d
  refine ⟨hparse, halone, hanswers, ?_⟩
  rw [hanswers, List.map_cons, List.map_cons, List.map_cons, List.map_cons, halone]
  simp [Except.map, Path.view, Segment.view]

end Cached

end DocPath
