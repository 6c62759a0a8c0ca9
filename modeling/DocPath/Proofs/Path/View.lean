import DocPath.Path.Cache
import DocPath.Proofs.Pattern.RoundTrip

/-! # What shows of paths

Paths with the same view read and write alike, and match alike. Of a destructuring expression
its kind, its rules and its source show; a name that spells the source need not stand for it. -/

namespace DocPath

/-! ## What shows of a path -/

/-- A destructuring expression acts by its kind, its rules and its source. -/
inductive SegmentView where
  | key (k : Key)
  | destructor (kind : Template.Kind) (rules : List Rule) (source : String)

def Segment.view : Segment → SegmentView
  | .key k => .key k
  | .destructor d => .destructor d.kind d.rules d.source

/-- What shows of a path. The flags of a match pattern are those of its chain. -/
inductive PathView where
  | literal (entire : String) (segments : List SegmentView)
  | pattern (text : String) (chain : Chain)

def Path.view : Path → PathView
  | .literal entire segments => .literal entire (segments.map Segment.view)
  | .pattern text chain => .pattern text chain

def SegmentView.render : SegmentView → String
  | .key k => k.render
  | .destructor _ _ source => source

theorem Segment.render_view (segment : Segment) : segment.view.render = segment.render := by
  cases segment <;> rfl

theorem map_render_eq_of_view {segments segments' : List Segment}
    (h : segments.map Segment.view = segments'.map Segment.view) :
    segments.map Segment.render = segments'.map Segment.render := by
  have hrender := congrArg (List.map SegmentView.render) h
  simpa [List.map_map, Function.comp_def, Segment.render_view] using hrender

/-! ## Names that stand for what they render -/

theorem parse_of_plain {text : String} (hne : text ≠ "")
    (h : ∀ c ∈ text.toList, isPlain c = true) :
    Chain.parse text = .ok [.name text false false] := by
  have hchar : ∀ c ∈ text.toList, spellChar c = [c] :=
    fun c hc => by rw [spellChar, if_pos (h c hc)]
  have hspell : spell text = text.toList := by
    rw [spell, List.flatMap_def, List.map_congr_left hchar, ← List.flatMap_def,
      List.flatMap_singleton']
  have hprint : Chain.print [.name text false false] = text := by
    simp [Chain.print, printSteps, Step.print, printRest, printExpand, hspell]
  have hwell : Chain.WellFormed [.name text false false] :=
    Pattern.wellFormed_nameSteps hne (List.forall_mem_nil _) (absurd rfl) false
  have hparse := Chain.parse_print hwell
  rwa [hprint] at hparse

theorem normalizeText_of_plain {text : String} (hne : text ≠ "")
    (h : ∀ c ∈ text.toList, isPlain c = true) :
    Path.normalizeText text = [.key (.ofName text)] := by
  have hparse := parse_of_plain hne h
  rw [← stripBlanks_of_plain h] at hparse
  rw [Path.normalizeText_of_literal hparse rfl, stripBlanks_of_plain h]
  rfl

theorem Key.isPlain_render_index (n : Nat) :
    ∀ c ∈ (Key.render (.index n)).toList, isPlain c = true := by
  intro c hc
  have htext : (Key.render (.index n)).toList = Nat.toDigits 10 n := by simp [Key.render]
  rw [htext] at hc
  exact isPlain_of_isDigit (Nat.isDigit_of_mem_toDigits (by decide) (by decide) hc)

theorem Key.render_index_ne_empty (n : Nat) : Key.render (.index n) ≠ "" := by
  intro hempty
  have htext : (Key.render (.index n)).toList = Nat.toDigits 10 n := by simp [Key.render]
  rw [hempty] at htext
  exact Nat.toDigits_ne_nil htext.symm

theorem normalizeText_index {n : Nat} (h : n < Numeral.wordLimit) :
    Path.normalizeText (Key.render (.index n)) = [.key (.index n)] := by
  rw [normalizeText_of_plain (Key.render_index_ne_empty n) (Key.isPlain_render_index n),
    Key.ofName_render_index h]

/-! ## Segments that are read back -/

/-- The source of an expression is read as an expression of the same kind, with the same rules
and the same source. -/
def Destructor.ReadsBack (d : Destructor) : Prop :=
  ∃ template, Chain.parse (stripBlanks d.source) = .ok [.destructor ⟨template, d.source⟩] ∧
    template.kind = d.kind ∧ template.rules = d.rules

/-- A segment that may share the text it renders as with a name. -/
def Segment.ReadsBack : Segment → Prop
  | .key (.name _) => True
  | .key (.index n) => n < Numeral.wordLimit
  | .destructor d => d.ReadsBack

theorem segment?_eq_some_destructor_iff {step : Step} {d : Destructor} :
    step.segment? = some (.destructor d) ↔ step = .destructor d := by
  cases step <;> simp [Step.segment?]

theorem view_eq_view_destructor_iff {segment : Segment} {d : Destructor} :
    segment.view = Segment.view (.destructor d) ↔
      ∃ template, segment = .destructor ⟨template, d.source⟩ ∧ template.kind = d.kind ∧
        template.rules = d.rules := by
  cases segment with
  | key k => simp [Segment.view]
  | destructor e =>
      obtain ⟨template, source⟩ := e
      simp only [Segment.view, Destructor.kind, Destructor.rules, SegmentView.destructor.injEq,
        Segment.destructor.injEq, Destructor.mk.injEq]
      constructor
      · intro h
        exact ⟨template, ⟨rfl, h.2.2⟩, h.1, h.2.1⟩
      · intro h
        obtain ⟨_, ⟨rfl, hsource⟩, hkind, hrules⟩ := h
        exact ⟨hkind, hrules, hsource⟩

/-- An expression is read back just if the name that spells its source stands for it. -/
theorem readsBack_iff {d : Destructor} : d.ReadsBack ↔
    (Path.normalizeText d.source).map Segment.view = [Segment.view (.destructor d)] := by
  rw [Destructor.ReadsBack, Path.normalizeText]
  cases Chain.parse (stripBlanks d.source) with
  | error fault => simp [Segment.view]
  | ok chain =>
      simp only [Except.ok.injEq]
      cases hmatch : chain.isMatch with
      | true =>
          refine iff_of_false ?_ (by simp [Segment.view])
          rintro ⟨template, rfl, -⟩
          cases hmatch
      | false =>
          rw [if_neg (by simp)]
          constructor
          · rintro ⟨template, rfl, halike⟩
            have hview := view_eq_view_destructor_iff.mpr ⟨template, rfl, halike⟩
            exact congrArg ([·]) hview
          · intro h
            have hsteps := Chain.forall₂_segments hmatch
            generalize chain.segments = segments at h hsteps
            cases hsteps with
            | nil => cases h
            | cons hs hrest =>
                cases hrest with
                | nil =>
                    obtain ⟨template, rfl, halike⟩ :=
                      view_eq_view_destructor_iff.mp (List.singleton_inj.mp h)
                    exact ⟨template, by rw [segment?_eq_some_destructor_iff.mp hs], halike⟩
                | cons _ _ => simp at h

/-- A segment is normalized like the name that renders as it does. -/
theorem normalizeSegment_view {segment : Segment} (h : segment.ReadsBack) :
    (Path.normalizeSegment segment).map Segment.view =
      (Path.normalizeText segment.render).map Segment.view := by
  match segment with
  | .key (.name text) => rfl
  | .key (.index n) =>
      have htext := normalizeText_index h
      exact congrArg (List.map Segment.view) htext.symm
  | .destructor d => exact (readsBack_iff.mp h).symm

/-! ## Documents and matches by view -/

theorem route_of_view {segments segments' : List Segment}
    (h : segments.map Segment.view = segments'.map Segment.view) :
    (∃ keys, route segments = (keys, none) ∧ route segments' = (keys, none)) ∨
      ∃ keys d e, route segments = (keys, some d) ∧ route segments' = (keys, some e) ∧
        d.kind = e.kind ∧ d.rules = e.rules := by
  induction segments generalizing segments' with
  | nil =>
      obtain rfl := List.map_eq_nil_iff.mp h.symm
      exact Or.inl ⟨[], rfl, rfl⟩
  | cons segment rest ih =>
      cases segments' with
      | nil => cases h
      | cons segment' rest' =>
          obtain ⟨hsegment, hrest⟩ := List.cons_eq_cons.mp h
          cases segment with
          | destructor d =>
              obtain ⟨template, rfl, hkind, hrules⟩ :=
                view_eq_view_destructor_iff.mp hsegment.symm
              exact Or.inr ⟨[], d, _, rfl, rfl, hkind.symm, hrules.symm⟩
          | key k =>
              cases segment' with
              | destructor e => cases hsegment
              | key k' =>
                  cases hsegment
                  rcases ih hrest with
                    ⟨keys, hroute, hroute'⟩ | ⟨keys, d, e, hroute, hroute', halike⟩
                  · exact Or.inl ⟨k :: keys, by simp [route, hroute], by simp [route, hroute']⟩
                  · exact Or.inr ⟨k :: keys, d, e, by simp [route, hroute],
                      by simp [route, hroute'], halike⟩

namespace Document

variable {segments segments' : List Segment}

theorem getAt_of_view (h : segments.map Segment.view = segments'.map Segment.view)
    (doc : Document) : doc.getAt segments = doc.getAt segments' := by
  rcases route_of_view h with ⟨keys, hroute, hroute'⟩ | ⟨keys, d, e, hroute, hroute', hkind, hrules⟩
  · rw [getAt, getAt, hroute, hroute']
  · have hread : d.read = e.read := by
      funext source
      rw [Destructor.read, Destructor.read, Destructor.blank, Destructor.blank, hkind, hrules]
    simp only [getAt, hroute, hroute', hread]

theorem setAt_of_view (h : segments.map Segment.view = segments'.map Segment.view)
    (doc value : Document) : doc.setAt segments value = doc.setAt segments' value := by
  rcases route_of_view h with ⟨keys, hroute, hroute'⟩ | ⟨keys, d, e, hroute, hroute', hkind, hrules⟩
  · rw [setAt, setAt, hroute, hroute']
  · have hwrite : d.write = e.write := by
      funext target flat
      rw [Destructor.write, Destructor.write, hrules]
    simp only [setAt, hroute, hroute', hwrite]

theorem deleteAt_of_view (h : segments.map Segment.view = segments'.map Segment.view)
    (doc : Document) : doc.deleteAt segments = doc.deleteAt segments' := by
  rcases route_of_view h with ⟨keys, hroute, hroute'⟩ | ⟨keys, d, e, hroute, hroute', hkind, hrules⟩
  · rw [deleteAt, deleteAt, hroute, hroute']
  · have hremove : d.remove = e.remove := by
      funext target
      rw [Destructor.remove, Destructor.remove, hrules]
    simp only [deleteAt, hroute, hroute', hremove]

theorem existsAt_of_view (h : segments.map Segment.view = segments'.map Segment.view)
    (doc : Document) (start : Nat) :
    doc.existsAt segments start = doc.existsAt segments' start := by
  have hdrop : (segments.drop start).map Segment.view =
      (segments'.drop start).map Segment.view := by
    rw [List.map_drop, List.map_drop, h]
  rcases route_of_view hdrop with
    ⟨keys, hroute, hroute'⟩ | ⟨keys, d, e, hroute, hroute', hkind, hrules⟩
  · rw [existsAt, existsAt, hroute, hroute']
  · have hholds : d.holds = e.holds := by
      funext source
      rw [Destructor.holds, Destructor.holds, hrules]
    simp only [existsAt, hroute, hroute', hholds]

end Document

/-! ## Matching depends on keys -/

theorem Chain.matchRecord_of_render (chain : Chain) {segments segments' : List Segment}
    (h : segments.map Segment.render = segments'.map Segment.render) :
    chain.matchRecord segments = chain.matchRecord segments' := by
  have hempty : segments.isEmpty = segments'.isEmpty := by
    simpa using congrArg List.isEmpty h
  rw [Chain.matchRecord, Chain.matchRecord, h, hempty]

namespace Path

theorem view_literal_eq_iff {entire : String} {segments : List Segment} {path : Path} :
    view (.literal entire segments) = path.view ↔ ∃ segments', path = .literal entire segments' ∧
      segments.map Segment.view = segments'.map Segment.view := by
  cases path with
  | pattern text chain => simp [view]
  | literal entire' segments' =>
      simp only [view, PathView.literal.injEq, literal.injEq]
      constructor
      · rintro ⟨rfl, h⟩
        exact ⟨segments', ⟨rfl, rfl⟩, h⟩
      · rintro ⟨_, ⟨rfl, rfl⟩, h⟩
        exact ⟨rfl, h⟩

theorem view_pattern_eq_iff {text : String} {chain : Chain} {path : Path} :
    view (.pattern text chain) = path.view ↔ path = .pattern text chain := by
  cases path with
  | literal entire segments => simp [view]
  | pattern text' chain' => simp [view, eq_comm]

theorem cacheKey_of_view {path path' : Path} (h : path.view = path'.view) :
    path.cacheKey = path'.cacheKey ∧ path.chain? = path'.chain? := by
  cases path with
  | literal entire segments =>
      obtain ⟨segments', rfl, hviews⟩ := view_literal_eq_iff.mp h
      exact ⟨congrArg CacheKey.segments (map_render_eq_of_view hviews), rfl⟩
  | pattern text chain =>
      obtain rfl := view_pattern_eq_iff.mp h
      exact ⟨rfl, rfl⟩

/-- Paths with one key and one chain are matched and included alike. -/
theorem matchRecord_of_cacheKey {other other' : Path} (hkey : other.cacheKey = other'.cacheKey)
    (hchain : other.chain? = other'.chain?) (path : Path) :
    path.matchRecord other = path.matchRecord other' ∧
      path.includes other = path.includes other' := by
  cases other with
  | literal entire segments =>
      cases other' with
      | pattern text chain => cases hkey
      | literal entire' segments' =>
          have hrender : segments.map Segment.render = segments'.map Segment.render :=
            CacheKey.segments.inj hkey
          cases path with
          | literal _ own =>
              simp only [matchRecord, includes, matchSegments, hrender, and_self]
          | pattern _ chain =>
              simp only [matchRecord, includes, Chain.matchRecord_of_render chain hrender, and_self]
  | pattern text chain =>
      cases other' with
      | literal entire segments => cases hkey
      | pattern text' chain' =>
          obtain rfl := CacheKey.text.inj hkey
          obtain rfl := Option.some.inj hchain
          exact ⟨rfl, rfl⟩

end Path

end DocPath
