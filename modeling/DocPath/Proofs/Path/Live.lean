import DocPath.Proofs.Path.Cache

/-! # Remembered matches

A path under edit may answer from what it remembers. What it remembers is true of its present
segments, whatever has been done with it, so its answers are those of a path that has not been
asked anything yet. -/

namespace DocPath

/-! ## Compiled paths and their keys -/

namespace Path

/-- The chain of a match pattern is the one that its text is read as. -/
def Compiled : Path → Prop
  | .literal .. => True
  | .pattern text chain => ofText text = .ok (.pattern text chain)

theorem text_eq_of_ofText {text text' : String} {chain : Chain}
    (h : ofText text = .ok (.pattern text' chain)) : text = text' := by
  obtain ⟨read, -, ⟨-, hpath⟩ | ⟨-, hpath⟩⟩ := ofText_cases h
  · cases hpath
  · exact (pattern.inj hpath).1.symm

theorem compiled_of_ofText {text : String} {path : Path} (h : ofText text = .ok path) :
    path.Compiled := by
  cases path with
  | literal entire segments => trivial
  | pattern text' chain =>
      obtain rfl := text_eq_of_ofText h
      exact h

theorem chain?_eq_of_cacheKey {other other' : Path} (h : other.Compiled) (h' : other'.Compiled)
    (hkey : other.cacheKey = other'.cacheKey) : other.chain? = other'.chain? := by
  cases other with
  | literal entire segments =>
      cases other' with
      | literal entire' segments' => rfl
      | pattern text' chain' => cases hkey
  | pattern text chain =>
      cases other' with
      | literal entire' segments' => cases hkey
      | pattern text' chain' =>
          obtain rfl := CacheKey.text.inj hkey
          have hpath := Except.ok.inj (h.symm.trans h')
          exact congrArg chain? hpath

end Path

/-- A text, or a path as it was compiled. -/
def Pattern.Direct : Pattern → Prop
  | .text _ => True
  | .path p => p.Compiled
  | .segments _ => False

/-- A text recalls what it is read as. -/
def PathCache.Genuine (cache : PathCache) : Prop :=
  cache.Keeps fun key path => ∀ text, key = .text text → Path.ofText text = .ok path

namespace Cached

theorem ofText_of_compile {pattern : Pattern} {key : CacheKey} {path : Path}
    (hkey : pattern.cacheKey? = some key) (hcompile : Path.compile pattern = .ok path)
    {text : String} (htext : key = .text text) : Path.ofText text = .ok path := by
  subst htext
  cases pattern with
  | text _ =>
      cases hkey
      exact hcompile
  | segments raw => cases hkey
  | path _ => cases hkey

theorem genuine_after (patterns : List Pattern) : (after .empty patterns).Genuine :=
  keeps_after (Memo.keeps_empty _ _) fun _ _ _ _ hkey hcompile _ => ofText_of_compile hkey hcompile

theorem genuine_left {cache : PathCache} (hc : cache.Genuine) (pattern : Pattern) :
    ((compile pattern).left cache).Genuine :=
  (outcome_compile pattern cache).keeps hc fun _ _ hkey hcompile _ =>
    ofText_of_compile hkey hcompile

theorem answer_compile_of_direct {cache : PathCache} (hc : cache.Genuine) {pattern : Pattern}
    (h : pattern.Direct) : (compile pattern).answer cache = alone pattern := by
  have houtcome := outcome_compile pattern cache
  generalize (compile pattern).left cache = left at houtcome
  generalize (compile pattern).answer cache = result at houtcome ⊢
  unfold alone
  cases houtcome with
  | recalled hkey hfound =>
      cases pattern with
      | text text =>
          cases hkey
          rw [Path.compile, hc _ _ hfound text rfl]
          rfl
      | segments raw => cases h
      | path path => cases hkey
  | stored _ hcompile | unkeyed hcompile =>
      rw [hcompile]
      rfl
  | refused hcompile =>
      rw [hcompile]
      rfl

theorem alone_eq_ok_iff {pattern : Pattern} {path : Path} :
    alone pattern = .ok path ↔ Path.compile pattern = .ok path := by
  unfold alone
  cases Path.compile pattern <;> simp [Except.mapError]

theorem compiled_of_alone {pattern : Pattern} (h : pattern.Direct) {other : Path}
    (halone : alone pattern = .ok other) : other.Compiled := by
  have hcompile := alone_eq_ok_iff.mp halone
  cases pattern with
  | text text => exact Path.compiled_of_ofText hcompile
  | segments raw => cases h
  | path path =>
      cases hcompile
      exact h

/-! ## Computations without compiling -/

variable {α β : Type} (cache : PathCache)

theorem answer_map (f : α → β) (action : Cached α) :
    (f <$> action).answer cache = (action.answer cache).map f := by
  unfold answer
  rw [ExceptT.run_map, StateT.run_map]
  rcases action.run.run cache with ⟨fault | a, left⟩ <;> rfl

theorem answer_map_lift (f : α → β) (result : Except PathError α) :
    (f <$> (liftM result : Cached α)).answer cache = result.map f := by
  rw [answer_map]
  cases result <;> rfl

theorem left_map (f : α → β) (action : Cached α) :
    (f <$> action).left cache = action.left cache := by
  unfold left
  rw [ExceptT.run_map, StateT.run_map]
  rfl

theorem left_bind (action : Cached α) (next : α → Cached β)
    (hnext : ∀ a cache, (next a).left cache = cache) :
    (action >>= next).left cache = action.left cache := by
  unfold left
  rw [ExceptT.run_bind, StateT.run_bind]
  rcases action.run.run cache with ⟨fault | a, left⟩
  · rfl
  · exact hnext a left

end Cached

/-! ## Calls -/

namespace LivePath

/-- An edit of a path, or a question to it. -/
inductive Call where
  | push (pattern : Pattern)
  | pop
  | splice (start count : Nat) (items : List Pattern)
  | matchRecord (pattern : Pattern)
  | includes (pattern : Pattern)

inductive Answer where
  | pushed
  | popped (segment : Option Segment)
  | spliced (removed : List Segment)
  | record (record : MatchRecord)
  | included (included : Bool)
deriving DecidableEq

/-- What a call answers, and the path behind it. -/
def Call.perform (live : LivePath) : Call → Cached (Answer × LivePath)
  | .push pattern => (fun live => (.pushed, live)) <$> (liftM (live.push pattern) : Cached _)
  | .pop => Prod.map .popped id <$> (liftM live.pop : Cached _)
  | .splice start count items =>
      Prod.map .spliced id <$> (liftM (live.splice start count items) : Cached _)
  | .matchRecord pattern => Prod.map .record id <$> live.matchRecord pattern
  | .includes pattern => Prod.map .included id <$> live.includes pattern

/-- What a question is about. -/
def Call.argument? : Call → Option Pattern
  | .matchRecord pattern | .includes pattern => some pattern
  | .push _ | .pop | .splice .. => none

/-- A question about a text, or about a path as it was compiled. Edits may be by anything. -/
def Call.Direct (call : Call) : Prop :=
  ∀ pattern, call.argument? = some pattern → pattern.Direct

theorem Call.Direct.of_argument? {call : Call} {pattern : Pattern}
    (hargument : call.argument? = some pattern) (h : pattern.Direct) : call.Direct := by
  intro argument heq
  rw [hargument] at heq
  exact Option.some.inj heq ▸ h

/-- A call that fails leaves the path as it was. -/
def Call.next (call : Call) (live : LivePath) (cache : PathCache) : LivePath :=
  match (call.perform live).answer cache with
  | .ok (_, next) => next
  | .error _ => live

/-- The answers to calls made one after the other. -/
def answers (live : LivePath) (cache : PathCache) : List Call → List (Except PathError Answer)
  | [] => []
  | call :: rest =>
      ((call.perform live).answer cache).map Prod.fst ::
        answers (call.next live cache) ((call.perform live).left cache) rest

/-- The same when each call is made to a path that remembers nothing. -/
def freshAnswers (path : Path) (cache : PathCache) : List Call → List (Except PathError Answer)
  | [] => []
  | call :: rest =>
      ((call.perform (fresh path)).answer cache).map Prod.fst ::
        freshAnswers (call.next (fresh path) cache).path cache rest

/-! ## What is remembered is true -/

/-- What has been answered for a key is the answer for every path with that key. -/
structure Sound (live : LivePath) : Prop where
  records : live.records.Keeps fun key record => ∀ other : Path, other.Compiled →
    other.cacheKey = key → live.path.matchRecord other = .ok record
  inclusions : live.inclusions.Keeps fun key included => ∀ other : Path, other.Compiled →
    other.cacheKey = key → live.path.includes other = .ok included

theorem sound_fresh (path : Path) : (fresh path).Sound :=
  ⟨Memo.keeps_empty _ _, Memo.keeps_empty _ _⟩

section

variable {live : LivePath} (hlive : live.Sound) {cache : PathCache} (hc : cache.Genuine)
  {pattern : Pattern} (h : pattern.Direct)

include hlive hc h

theorem answer_matchRecord : (live.matchRecord pattern).answer cache =
    (Cached.alone pattern).bind fun other => (live.path.matchRecord other).map fun record =>
      (record, { live with records := live.records.store other.cacheKey record }) := by
  unfold matchRecord
  rw [Cached.answer_bind, Cached.answer_compile_of_direct hc h]
  cases halone : Cached.alone pattern with
  | error fault => rfl
  | ok other =>
      cases hfound : live.records.find? other.cacheKey with
      | none =>
          simp only [Except.bind, hfound]
          cases live.path.matchRecord other <;> rfl
      | some record =>
          have hrecord := hlive.records _ _ hfound other (Cached.compiled_of_alone h halone) rfl
          simp only [Except.bind, hfound, hrecord]
          rfl

theorem answer_includes : (live.includes pattern).answer cache =
    (Cached.alone pattern).bind fun other => (live.path.includes other).map fun included =>
      (included, { live with inclusions := live.inclusions.store other.cacheKey included }) := by
  unfold includes
  rw [Cached.answer_bind, Cached.answer_compile_of_direct hc h]
  cases halone : Cached.alone pattern with
  | error fault => rfl
  | ok other =>
      cases other with
      | pattern text chain => cases live.path <;> rfl
      | literal entire segments =>
          cases hfound : live.inclusions.find? (Path.literal entire segments).cacheKey with
          | none =>
              simp only [Except.bind, Path.isMatch, hfound]
              cases live.path.includes (.literal entire segments) <;> rfl
          | some included =>
              have hincluded :=
                hlive.inclusions _ _ hfound _ (Cached.compiled_of_alone h halone) rfl
              simp only [Except.bind, Path.isMatch, hfound, hincluded]
              rfl

end

theorem Sound.store_record {live : LivePath} (hlive : live.Sound) {other : Path}
    (hother : other.Compiled) {record : MatchRecord}
    (hrecord : live.path.matchRecord other = .ok record) :
    Sound { live with records := live.records.store other.cacheKey record } := by
  refine ⟨hlive.records.store ?_, hlive.inclusions⟩
  intro other' hother' hkey
  have hchain := Path.chain?_eq_of_cacheKey hother' hother hkey
  rw [← hrecord]
  exact (Path.matchRecord_of_cacheKey hkey hchain live.path).1

theorem Sound.store_included {live : LivePath} (hlive : live.Sound) {other : Path}
    (hother : other.Compiled) {included : Bool}
    (hincluded : live.path.includes other = .ok included) :
    Sound { live with inclusions := live.inclusions.store other.cacheKey included } := by
  refine ⟨hlive.records, hlive.inclusions.store ?_⟩
  intro other' hother' hkey
  have hchain := Path.chain?_eq_of_cacheKey hother' hother hkey
  rw [← hincluded]
  exact (Path.matchRecord_of_cacheKey hkey hchain live.path).2

/-! ## One call -/

/-- What a call comes to on a path that remembers nothing, with nothing compiled before. -/
def Call.outcome (path : Path) : Call → Except PathError (Answer × Path)
  | .push pattern => (path.push pattern).map fun path => (.pushed, path)
  | .pop => path.pop.map (Prod.map .popped id)
  | .splice start count items => (path.splice start count items).map (Prod.map .spliced id)
  | .matchRecord pattern => (Cached.alone pattern).bind fun other =>
      (path.matchRecord other).map fun record => (.record record, path)
  | .includes pattern => (Cached.alone pattern).bind fun other =>
      (path.includes other).map fun included => (.included included, path)

section

variable {live : LivePath} (hlive : live.Sound) {cache : PathCache} (hc : cache.Genuine)
  {call : Call} (h : call.Direct)

include hlive hc h

/-- A call to a path that remembers only what is true comes to what it comes to without. -/
theorem answer_perform : ((call.perform live).answer cache).map (Prod.map id LivePath.path) =
    call.outcome live.path := by
  cases call with
  | push pattern =>
      rw [Call.perform, Cached.answer_map_lift, push, Call.outcome]
      cases live.path.push pattern <;> rfl
  | pop =>
      rw [Call.perform, Cached.answer_map_lift, pop, Call.outcome]
      cases live.path.pop <;> rfl
  | splice start count items =>
      rw [Call.perform, Cached.answer_map_lift, splice, Call.outcome]
      cases live.path.splice start count items <;> rfl
  | matchRecord pattern =>
      rw [Call.perform, Cached.answer_map, answer_matchRecord hlive hc (h pattern rfl),
        Call.outcome]
      cases Cached.alone pattern with
      | error fault => rfl
      | ok other =>
          rw [Except.bind, Except.bind]
          cases live.path.matchRecord other <;> rfl
  | includes pattern =>
      rw [Call.perform, Cached.answer_map, answer_includes hlive hc (h pattern rfl),
        Call.outcome]
      cases Cached.alone pattern with
      | error fault => rfl
      | ok other =>
          rw [Except.bind, Except.bind]
          cases live.path.includes other <;> rfl

/-- What is remembered stays true. -/
theorem sound_next : (call.next live cache).Sound := by
  cases call with
  | push pattern =>
      rw [Call.next, Call.perform, Cached.answer_map_lift, push]
      cases live.path.push pattern with
      | error fault => exact hlive
      | ok path => exact sound_fresh path
  | pop =>
      rw [Call.next, Call.perform, Cached.answer_map_lift, pop]
      cases live.path.pop with
      | error fault => exact hlive
      | ok popped => exact sound_fresh popped.2
  | splice start count items =>
      rw [Call.next, Call.perform, Cached.answer_map_lift, splice]
      cases live.path.splice start count items with
      | error fault => exact hlive
      | ok spliced => exact sound_fresh spliced.2
  | matchRecord pattern =>
      rw [Call.next, Call.perform, Cached.answer_map, answer_matchRecord hlive hc (h pattern rfl)]
      cases halone : Cached.alone pattern with
      | error fault => exact hlive
      | ok other =>
          have hother := Cached.compiled_of_alone (h pattern rfl) halone
          rw [Except.bind]
          cases hrecord : live.path.matchRecord other with
          | error fault => exact hlive
          | ok record => exact hlive.store_record hother hrecord
  | includes pattern =>
      rw [Call.next, Call.perform, Cached.answer_map, answer_includes hlive hc (h pattern rfl)]
      cases halone : Cached.alone pattern with
      | error fault => exact hlive
      | ok other =>
          have hother := Cached.compiled_of_alone (h pattern rfl) halone
          rw [Except.bind]
          cases hincluded : live.path.includes other with
          | error fault => exact hlive
          | ok included => exact hlive.store_included hother hincluded

end

theorem genuine_perform {cache : PathCache} (hc : cache.Genuine) (call : Call) (live : LivePath) :
    ((call.perform live).left cache).Genuine := by
  cases call with
  | push pattern =>
      rw [Call.perform, Cached.left_map]
      cases live.push pattern <;> exact hc
  | pop =>
      rw [Call.perform, Cached.left_map]
      cases live.pop <;> exact hc
  | splice start count items =>
      rw [Call.perform, Cached.left_map]
      cases live.splice start count items <;> exact hc
  | matchRecord pattern =>
      rw [Call.perform, Cached.left_map, matchRecord, Cached.left_bind]
      · exact Cached.genuine_left hc pattern
      · intro other cache
        cases live.records.find? other.cacheKey with
        | some record => rfl
        | none => cases live.path.matchRecord other <;> rfl
  | includes pattern =>
      rw [Call.perform, Cached.left_map, includes, Cached.left_bind]
      · exact Cached.genuine_left hc pattern
      · intro other cache
        cases other.isMatch with
        | true => rfl
        | false =>
            cases live.inclusions.find? other.cacheKey with
            | some included => rfl
            | none => cases live.path.includes other <;> rfl

/-! ## Runs -/

theorem path_next (call : Call) (live : LivePath) (cache : PathCache) :
    (call.next live cache).path =
      match ((call.perform live).answer cache).map (Prod.map id LivePath.path) with
      | .ok (_, path) => path
      | .error _ => live.path := by
  rw [Call.next]
  cases (call.perform live).answer cache <;> rfl

theorem map_fst_eq_of_map_path {result result' : Except PathError (Answer × LivePath)}
    (h : result.map (Prod.map id LivePath.path) = result'.map (Prod.map id LivePath.path)) :
    result.map Prod.fst = result'.map Prod.fst := by
  have hfst := congrArg (Except.map Prod.fst) h
  cases result <;> cases result' <;> exact hfst

/-- A run that starts from true memories answers as if there were none. -/
theorem Sound.answers_eq {live : LivePath} (hlive : live.Sound) {cache cache' : PathCache}
    (hc : cache.Genuine) (hc' : cache'.Genuine) {calls : List Call}
    (h : ∀ call ∈ calls, call.Direct) :
    answers live cache calls = freshAnswers live.path cache' calls := by
  induction calls generalizing live cache with
  | nil => rfl
  | cons call rest ih =>
      obtain ⟨hcall, hrest⟩ := List.forall_mem_cons.mp h
      have hshown := (answer_perform hlive hc hcall).trans
        (answer_perform (sound_fresh live.path) hc' hcall).symm
      have hpath : (call.next live cache).path = (call.next (fresh live.path) cache').path := by
        rw [path_next, path_next, hshown]
        rfl
      rw [answers, freshAnswers, map_fst_eq_of_map_path hshown, ← hpath,
        ih (sound_next hlive hc hcall) (genuine_perform hc call live) hrest]

theorem freshAnswers_append_congr {cache : PathCache} {last last' : List Call}
    (h : ∀ path, freshAnswers path cache last = freshAnswers path cache last') (path : Path)
    (calls : List Call) :
    freshAnswers path cache (calls ++ last) = freshAnswers path cache (calls ++ last') := by
  induction calls generalizing path with
  | nil => exact h path
  | cons call rest ih => exact congrArg (List.cons _) (ih _)

theorem freshAnswers_singleton {cache : PathCache} (hc : cache.Genuine) {call : Call}
    (h : call.Direct) (path : Path) :
    freshAnswers path cache [call] = [(call.outcome path).map Prod.fst] := by
  have houtcome := answer_perform (sound_fresh path) hc h
  change _ = call.outcome path at houtcome
  rw [freshAnswers, freshAnswers, ← houtcome]
  cases (call.perform (fresh path)).answer cache <;> rfl

/-- A question at the end of a run may be asked about another path that it comes to the same
for. -/
theorem answers_append_eq {cache cache' : PathCache} (hc : cache.Genuine) (hc' : cache'.Genuine)
    {calls : List Call} (h : ∀ call ∈ calls, call.Direct) {last last' : Call} (hl : last.Direct)
    (hl' : last'.Direct) (houtcome : ∀ path, last.outcome path = last'.outcome path)
    (path : Path) :
    answers (fresh path) cache (calls ++ [last]) =
      answers (fresh path) cache' (calls ++ [last']) := by
  have hfresh := sound_fresh path
  have hcalls : ∀ call ∈ calls ++ [last], call.Direct :=
    List.forall_mem_append.mpr ⟨h, List.forall_mem_singleton.mpr hl⟩
  have hcalls' : ∀ call ∈ calls ++ [last'], call.Direct :=
    List.forall_mem_append.mpr ⟨h, List.forall_mem_singleton.mpr hl'⟩
  calc answers (fresh path) cache (calls ++ [last])
      = freshAnswers path cache (calls ++ [last]) := hfresh.answers_eq hc hc hcalls
    _ = freshAnswers path cache (calls ++ [last']) := by
        refine freshAnswers_append_congr (fun path => ?_) path calls
        rw [freshAnswers_singleton hc hl, freshAnswers_singleton hc hl', houtcome]
    _ = answers (fresh path) cache' (calls ++ [last']) := (hfresh.answers_eq hc' hc hcalls').symm

/-- Whatever has been done with a path and whatever has been compiled before, its answers are
those of a path that remembers nothing. So questions about paths with one key have one answer. -/
theorem answers_eq_freshAnswers (path : Path) (history history' : List Pattern) {calls : List Call}
    (h : ∀ call ∈ calls, call.Direct) :
    let cache := Cached.after .empty history
    let cache' := Cached.after .empty history'
    answers (fresh path) cache calls = freshAnswers path cache' calls ∧
      ∀ pattern pattern' : Pattern, pattern.Direct → pattern'.Direct → ∀ other other' : Path,
        Cached.alone pattern = .ok other → Cached.alone pattern' = .ok other' →
        other.cacheKey = other'.cacheKey →
        answers (fresh path) cache (calls ++ [.matchRecord pattern]) =
            answers (fresh path) cache' (calls ++ [.matchRecord pattern']) ∧
          answers (fresh path) cache (calls ++ [.includes pattern]) =
            answers (fresh path) cache' (calls ++ [.includes pattern']) := by
  intro cache cache'
  have hc : cache.Genuine := Cached.genuine_after history
  have hc' : cache'.Genuine := Cached.genuine_after history'
  refine ⟨(sound_fresh path).answers_eq hc hc' h, ?_⟩
  intro pattern pattern' hp hp' other other' halone halone' hkey
  have hchain := Path.chain?_eq_of_cacheKey (Cached.compiled_of_alone hp halone)
    (Cached.compiled_of_alone hp' halone') hkey
  have halike := Path.matchRecord_of_cacheKey hkey hchain
  constructor
  · refine answers_append_eq hc hc' h (.of_argument? rfl hp) (.of_argument? rfl hp') ?_ path
    intro path
    rw [Call.outcome, Call.outcome, halone, halone', Except.bind, Except.bind, (halike path).1]
  · refine answers_append_eq hc hc' h (.of_argument? rfl hp) (.of_argument? rfl hp') ?_ path
    intro path
    rw [Call.outcome, Call.outcome, halone, halone', Except.bind, Except.bind, (halike path).2]

/-- A path is matched, lengthened, matched again and cut back. The path asked about last renders
as it does, with a name where it has an index. -/
theorem answers_eq_freshAnswers_around_push :
    let path : Path := .ofSegments [.key (.name "a"), .key (.index 3)]
    let named : Path := .ofSegments [.key (.name "a"), .key (.name "3")]
    let calls : List Call := [.matchRecord (.text "*.3"), .push (.text "b"),
      .matchRecord (.text "*.3"), .includes (.path named), .pop, .matchRecord (.text "*.3")]
    let cache := Cached.after .empty [.text "*.3", .text "*.("]
    (∀ call ∈ calls, call.Direct) ∧
      answers (fresh path) cache calls = freshAnswers path .empty calls ∧
      freshAnswers path .empty calls = [.ok (.record ⟨true, 5⟩), .ok .pushed,
        .ok (.record ⟨false, 0⟩), .ok (.included true), .ok (.popped (some (.key (.name "b")))),
        .ok (.record ⟨true, 5⟩)] ∧
      named.cacheKey = path.cacheKey ∧
      answers (fresh path) cache (calls ++ [.matchRecord (.path named)]) =
        answers (fresh path) .empty (calls ++ [.matchRecord (.path path)]) := by
  intro path named calls cache
  have h : ∀ call ∈ calls, call.Direct := by
    simp [calls, named, Call.Direct, Call.argument?, Pattern.Direct, Path.ofSegments,
      Path.Compiled]
  have hkey : named.cacheKey = path.cacheKey := by decide
  obtain ⟨hanswers, hsame⟩ := answers_eq_freshAnswers path [.text "*.3", .text "*.("] [] h
  exact ⟨h, hanswers, by decide +kernel, hkey,
    (hsame (.path named) (.path path) trivial trivial named path rfl rfl hkey).1⟩

end LivePath

end DocPath
