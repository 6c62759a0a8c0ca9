import DocPath.Proofs.Path.Edits
import Mathlib.Data.List.Induction

/-! # Paths as sequences

What an edit does to a literal path is what it says of a list, for any positions at all: they may
be out of order or past the end, and sums of them may not fit a machine word. -/

namespace DocPath

/-! ## Ranges of positions -/

namespace Bound

/-- A range with this lower bound takes in a position, as far as the bound goes. -/
def startsBy : Bound → Nat → Bool
  | included n, i => n ≤ i
  | excluded n, i => n < i
  | unbounded, _ => true

/-- A range with this upper bound takes in a position, as far as the bound goes. -/
def stopsPast : Bound → Nat → Bool
  | included n, i => i ≤ n
  | excluded n, i => i < n
  | unbounded, _ => true

/-- The entries of a list at the positions between two bounds. -/
def between {α : Type} (low high : Bound) (items : List α) : List α :=
  (items.zipIdx.filter fun entry => low.startsBy entry.2 && high.stopsPast entry.2).map Prod.fst

theorem startsBy_eq (low : Bound) (i : Nat) : low.startsBy i = decide (low.start ≤ i) := by
  cases low with
  | included n | excluded n => rfl
  | unbounded => simp [startsBy, start]

theorem stopsPast_eq (high : Bound) {i size : Nat} (h : i < size) :
    high.stopsPast i = decide (i < high.stop size) := by
  cases high with
  | included n => exact decide_eq_decide.mpr Nat.lt_succ_iff.symm
  | excluded n => rfl
  | unbounded => simp [stopsPast, stop, h]

theorem map_fst_filter_zipIdx {α : Type} (items : List α) (first start stop : Nat) :
    ((items.zipIdx first).filter fun entry => start ≤ entry.2 && entry.2 < stop).map Prod.fst =
      (items.take (stop - first)).drop (start - first) := by
  induction items generalizing first with
  | nil => simp
  | cons item items ih =>
      rw [List.zipIdx_cons, List.filter_cons]
      by_cases hstop : first < stop
      · rw [show stop - first = stop - (first + 1) + 1 by omega, List.take_succ_cons]
        by_cases hstart : start ≤ first
        · have hnow : start - first = 0 := by omega
          have hnext : start - (first + 1) = 0 := by omega
          simp [hstart, hstop, ih, hnow, hnext]
        · rw [show start - first = start - (first + 1) + 1 by omega, List.drop_succ_cons]
          simp [hstart, ih]
      · have hnow : stop - first = 0 := by omega
        have hnext : stop - (first + 1) = 0 := by omega
        simp [hstop, ih, hnow, hnext]

theorem between_eq {α : Type} (low high : Bound) (items : List α) :
    between low high items = (items.take (high.stop items.length)).drop low.start := by
  have hfilter : (items.zipIdx.filter fun entry =>
        low.startsBy entry.2 && high.stopsPast entry.2) =
      items.zipIdx.filter fun entry =>
        low.start ≤ entry.2 && entry.2 < high.stop items.length := by
    apply List.filter_congr
    intro entry hentry
    rw [startsBy_eq, stopsPast_eq high (List.snd_lt_of_mem_zipIdx hentry), Nat.add_zero]
  rw [between, hfilter]
  exact map_fst_filter_zipIdx items 0 low.start _

end Bound

/-! ## Positions that are machine words

The edits add positions without a limit. Here a sum stops at the greatest machine word, and a part
that is not there is refused. -/

/-- The sum of two positions. A sum that is no machine word is taken as the greatest one. -/
def cappedSum (m n : Nat) : Nat := min (m + n) (Numeral.wordLimit - 1)

/-- The entries from one position up to another. Positions that are out of order or past the end
are refused. -/
def part? {α : Type} (items : List α) (start stop : Nat) : Option (List α) :=
  if start ≤ stop ∧ stop ≤ items.length then some ((items.take stop).drop start) else none

namespace Bound

/-- The first position from a lower bound on, as a machine word. -/
def startWord : Bound → Nat
  | included n => n
  | excluded n => cappedSum n 1
  | unbounded => 0

/-- The first position past an upper bound, as a machine word. -/
def stopWord (size : Nat) : Bound → Nat
  | included n => cappedSum n 1
  | excluded n => n
  | unbounded => size

/-- The entries between two bounds, by positions that are machine words. -/
def between? {α : Type} (low high : Bound) (items : List α) : Option (List α) :=
  let start := min low.startWord items.length
  let stop := min (high.stopWord items.length) items.length
  if start < stop then part? items start stop else some []

end Bound

section Words

variable {α : Type} {items : List α}

theorem min_cappedSum {size : Nat} (h : size < Numeral.wordLimit) (m n : Nat) :
    min (cappedSum m n) size = min (m + n) size := by
  rw [cappedSum]
  omega

theorem part?_min {start stop : Nat} (h : start ≤ stop) :
    part? items (min start items.length) (min stop items.length) =
      some ((items.take stop).drop start) := by
  have hstart : min (min start items.length) (items.take stop).length =
      min start (items.take stop).length := by
    rw [List.length_take]
    omega
  rw [part?, if_pos (by omega), ← List.take_eq_take_min, List.drop_eq_drop_min, hstart,
    ← List.drop_eq_drop_min]

/-- A part between bounds is never refused. -/
theorem Bound.between?_eq_some (h : items.length < Numeral.wordLimit) (low high : Bound) :
    low.between? high items =
      some ((items.take (high.stop items.length)).drop low.start) := by
  have hstart : min low.startWord items.length = min low.start items.length := by
    cases low with
    | included n | unbounded => rfl
    | excluded n => exact min_cappedSum h n 1
  have hstop : min (high.stopWord items.length) items.length =
      min (high.stop items.length) items.length := by
    cases high with
    | included n => exact min_cappedSum h n 1
    | excluded n | unbounded => rfl
  rw [Bound.between?, hstart, hstop]
  split
  case isTrue hlt => exact part?_min (by omega)
  case isFalse hle =>
    rw [List.drop_of_length_le]
    rw [List.length_take]
    omega

end Words

namespace Edit

/-! ## Edits of lists -/

/-- An edit of the list of segments alone. -/
def IsSequential : Edit → Prop
  | nearestChild _ => False
  | push _ | pop | splice .. | concat _ | slice .. | parent => True

/-- What an edit does to a list of segments: what it hands back, and what it leaves. -/
inductive Makes (segments : List Segment) : Edit → List Segment → List Segment → Prop where
  | push (pattern) : Makes segments (.push pattern) [] (segments ++ Path.contribution pattern)
  | concat (pattern) : Makes segments (.concat pattern) [] (segments ++ Path.contribution pattern)
  | pop {front last} (h : segments = front ++ [last]) : Makes segments .pop [last] front
  | popNone (h : segments = []) : Makes segments .pop [] []
  | parent {front last} (h : segments = front ++ [last]) : Makes segments .parent [] front
  | parentNone (h : segments = []) : Makes segments .parent [] []
  | splice (start count items) {front removed behind} (h : segments = front ++ removed ++ behind)
      (hfront : front.length = min start segments.length)
      (hremoved : (front ++ removed).length = min (start + count) segments.length) :
      Makes segments (.splice start count items) removed
        (front ++ items.flatMap Path.contribution ++ behind)
  | slice (low high) : Makes segments (.slice low high) [] (low.between high segments)

/-- The segments that an edit takes out and hands back. -/
def handedBack (segments : List Segment) : Edit → List Segment
  | pop => segments.getLast?.toList
  | splice start count _ => (segments.drop start).take count
  | push _ | concat _ | slice .. | parent | nearestChild _ => []

theorem makes_edited {edit : Edit} (h : edit.IsSequential) (segments : List Segment) :
    edit.Makes segments (edit.handedBack segments) (edit.edited segments) := by
  cases edit with
  | push pattern => exact .push pattern
  | concat pattern => exact .concat pattern
  | pop =>
      cases segments using List.reverseRecOn with
      | nil => exact .popNone rfl
      | append_singleton front last =>
          rw [handedBack, edited, List.getLast?_concat, List.dropLast_concat]
          exact .pop rfl
  | parent =>
      cases segments using List.reverseRecOn with
      | nil => exact .parentNone rfl
      | append_singleton front last =>
          rw [handedBack, edited, List.dropLast_concat]
          exact .parent rfl
  | splice start count items =>
      rw [handedBack, edited]
      apply Makes.splice start count items
      · rw [List.append_assoc, List.take_append_drop, List.take_append_drop]
      · exact List.length_take
      · rw [← List.take_add, List.length_take]
  | slice low high =>
      rw [edited, ← Bound.between_eq]
      exact .slice low high
  | nearestChild target => exact h.elim

/-- What an edit hands back and leaves, by positions that are machine words. -/
def checked? (segments : List Segment) : Edit → Option (List Segment × List Segment)
  | splice start count items =>
      let first := min start segments.length
      let last := min (cappedSum first count) segments.length
      (part? segments first last).map fun removed =>
        (removed,
          segments.take first ++ items.flatMap Path.contribution ++ segments.drop last)
  | slice low high => (low.between? high segments).map ([], ·)
  | parent =>
      (Bound.unbounded.between? (.excluded (segments.length - 1)) segments).map ([], ·)
  | pop => some (segments.getLast?.toList, segments.dropLast)
  | push pattern | concat pattern => some ([], segments ++ Path.contribution pattern)
  | nearestChild target => some ([], segments ++ (target.segments[segments.length]?).toList)

theorem checked?_eq_some {segments : List Segment} (h : segments.length < Numeral.wordLimit)
    (edit : Edit) :
    edit.checked? segments = some (edit.handedBack segments, edit.edited segments) := by
  cases edit with
  | push | concat | pop | nearestChild => rfl
  | slice low high =>
      rw [checked?, Bound.between?_eq_some h, Option.map_some]
      rfl
  | parent =>
      rw [checked?, Bound.between?_eq_some h, Option.map_some, handedBack, edited,
        List.dropLast_eq_take]
      rfl
  | splice start count items =>
      have hlast : min (cappedSum (min start segments.length) count) segments.length =
          min (start + count) segments.length := by
        rw [min_cappedSum h]
        omega
      rw [checked?, hlast, part?_min (Nat.le_add_right start count), Option.map_some,
        ← List.take_eq_take_min, ← List.drop_eq_drop_min, handedBack, edited, List.drop_drop,
        List.take_drop]

/-! ## Edits of paths -/

/-- What an edit of a path hands back, and the path that it leaves. -/
def outcome (path : Path) : Edit → Except PathError (List Segment × Path)
  | pop => path.pop.map fun (last, shorter) => (last.toList, shorter)
  | splice start count items => path.splice start count items
  | push pattern => (path.push pattern).map ([], ·)
  | concat pattern => (path.concat pattern).map ([], ·)
  | slice low high => (path.slice low high).map ([], ·)
  | parent => path.parent.map ([], ·)
  | nearestChild target => (path.nearestChild target).map ([], ·)

theorem map_snd_map_mk {ε α β : Type} (a : α) (result : Except ε β) :
    (result.map (a, ·)).map Prod.snd = result := by
  cases result <;> rfl

theorem apply_eq_outcome (edit : Edit) (path : Path) :
    edit.apply path = (edit.outcome path).map Prod.snd := by
  cases edit with
  | pop =>
      rw [apply, outcome]
      cases path.pop <;> rfl
  | splice => rfl
  | push | concat | slice | parent | nearestChild => exact (map_snd_map_mk [] _).symm

theorem outcome_literal {edit : Edit} (h : edit.IsSequential) (entire : String)
    (segments : List Segment) : edit.outcome (.literal entire segments) =
      .ok (edit.handedBack segments, Path.ofSegments (edit.edited segments)) := by
  cases edit with
  | push | concat | pop | splice | slice => rfl
  | parent =>
      rw [handedBack, edited, List.dropLast_eq_take]
      rfl
  | nearestChild target => exact h.elim

theorem next_literal_eq {edit : Edit} (h : edit.IsSequential) (entire : String)
    (segments : List Segment) :
    edit.next (.literal entire segments) = Path.ofSegments (edit.edited segments) := by
  rw [next, apply_eq_outcome, outcome_literal h]
  rfl

/-- What an edit is called where it is refused. A parent is asked for as a part. -/
def operation : Edit → Operation
  | push _ => .push
  | pop => .pop
  | splice .. => .splice
  | concat _ => .concat
  | slice .. | parent => .slice
  | nearestChild _ => .nearestChild

theorem outcome_pattern (edit : Edit) (text : String) (chain : Chain) :
    edit.outcome (.pattern text chain) = .error (.wrongKind text edit.operation) := by
  cases edit <;> rfl

theorem next_pattern (edit : Edit) (text : String) (chain : Chain) :
    edit.next (.pattern text chain) = .pattern text chain := by
  rw [next, apply_eq_outcome, outcome_pattern]
  rfl

/-! ## Runs of edits -/

section Runs

variable {σ : Type} {m : Type → Type} [Monad m]

/-- One edit after the other: what each of them hands back, and what is left at the end. -/
def run (step : σ → Edit → m (List Segment × σ)) (state : σ) :
    List Edit → m (List (List Segment) × σ)
  | [] => pure ([], state)
  | edit :: rest => do
      let (handed, next) ← step state edit
      let (later, last) ← run step next rest
      return (handed :: later, last)

theorem run_cons [LawfulMonad m] {step : σ → Edit → m (List Segment × σ)} {state next : σ}
    {edit : Edit} {handed : List Segment} (h : step state edit = pure (handed, next))
    (rest : List Edit) : run step state (edit :: rest) =
      (fun (later, last) => (handed :: later, last)) <$> run step next rest := by
  rw [run, h, pure_bind, map_eq_pure_bind]

end Runs

/-- What a run of edits does to a list of segments. -/
inductive Runs : List Segment → List Edit → List (List Segment) → List Segment → Prop where
  | nil (segments) : Runs segments [] [] segments
  | cons {segments edit handed next rest later last} (first : edit.Makes segments handed next)
      (others : Runs next rest later last) :
      Runs segments (edit :: rest) (handed :: later) last

end Edit

namespace Path

theorem run_literal (path : Path) (hpath : path.isMatch = false) {edits : List Edit}
    (h : ∀ edit ∈ edits, edit.IsSequential) :
    ∃ handed last, Edit.run (fun path edit => edit.outcome path) path edits = .ok (handed, last) ∧
      Edit.Runs path.segments edits handed last.segments ∧
      ((∀ stage ∈ path.stages edits, stage.segments.length < Numeral.wordLimit) →
        Edit.run Edit.checked? path.segments edits = some (handed, last.segments)) ∧
      (path.entire = joinSegments path.segments ∨ edits ≠ [] →
        last.entire = joinSegments last.segments) := by
  induction edits generalizing path with
  | nil =>
      refine ⟨[], path, rfl, .nil path.segments, fun _ => rfl, ?_⟩
      intro hjoined
      exact hjoined.resolve_right fun hne => hne rfl
  | cons edit rest ih =>
      cases path with
      | pattern text chain => cases hpath
      | literal entire segments =>
          obtain ⟨hfirst, hrest⟩ := List.forall_mem_cons.mp h
          have hnext := Edit.next_literal_eq hfirst entire segments
          obtain ⟨later, last, hrun, hruns, hchecked, hjoined⟩ :=
            ih (ofSegments (edit.edited segments)) rfl hrest
          refine ⟨edit.handedBack segments :: later, last, ?_,
            .cons (Edit.makes_edited hfirst segments) hruns, ?_, fun _ => hjoined (Or.inl rfl)⟩
          · rw [Edit.run_cons (Edit.outcome_literal hfirst entire segments), hrun]
            rfl
          · intro hlengths
            rw [stages, hnext, List.forall_mem_cons] at hlengths
            have hlength : segments.length < Numeral.wordLimit := hlengths.1
            have hlater : Edit.run Edit.checked? (edit.edited segments) rest =
                some (later, last.segments) := hchecked hlengths.2
            apply (Edit.run_cons (Edit.checked?_eq_some hlength edit) rest).trans
            rw [hlater]
            rfl

/-- A match pattern is not edited. -/
theorem stages_pattern (text : String) (chain : Chain) (edits : List Edit) :
    ∀ stage ∈ (pattern text chain).stages edits, stage = pattern text chain := by
  induction edits with
  | nil => exact List.forall_mem_singleton.mpr rfl
  | cons edit rest ih =>
      rw [stages, Edit.next_pattern]
      exact List.forall_mem_cons.mpr ⟨rfl, ih⟩

/-- A path cut in two comes together again. -/
theorem concat_slice_slice (entire : String) (segments : List Segment) (k : Nat) :
    ∃ front behind, (literal entire segments).slice .unbounded (.excluded k) = .ok front ∧
      (literal entire segments).slice (.included k) .unbounded = .ok behind ∧
      front.concat (.path behind) = .ok (ofSegments segments) := by
  refine ⟨_, _, rfl, rfl, congrArg (Except.ok ∘ ofSegments) ?_⟩
  change segments.take k ++ (segments.take segments.length).drop k = segments
  rw [List.take_length, List.take_append_drop]

/-- A run of edits of a literal path goes through, and does to the segments what the edits say of
lists, even where positions are machine words. A match pattern refuses every edit. -/
theorem run_eq_ok_and_runs (path : Path) {edits : List Edit}
    (h : ∀ edit ∈ edits, edit.IsSequential) :
    (path.isMatch = false →
      (∃ handed last,
        Edit.run (fun path edit => edit.outcome path) path edits = .ok (handed, last) ∧
        Edit.Runs path.segments edits handed last.segments ∧
        ((∀ stage ∈ path.stages edits, stage.segments.length < Numeral.wordLimit) →
          Edit.run Edit.checked? path.segments edits = some (handed, last.segments)) ∧
        (edits ≠ [] → last.entire = joinSegments last.segments)) ∧
      ∀ k, ∃ front behind, path.slice .unbounded (.excluded k) = .ok front ∧
        path.slice (.included k) .unbounded = .ok behind ∧
        front.concat (.path behind) = .ok (ofSegments path.segments)) ∧
    (path.isMatch = true →
      (∀ edit : Edit,
        edit.outcome path = .error (.wrongKind path.entire edit.operation)) ∧
      ∀ stage ∈ path.stages edits, stage = path) := by
  cases path with
  | literal entire segments =>
      refine ⟨fun _ => ⟨?_, concat_slice_slice entire segments⟩, fun hmatch => (by cases hmatch)⟩
      obtain ⟨handed, last, hrun, hruns, hchecked, hjoined⟩ :=
        run_literal (literal entire segments) rfl h
      exact ⟨handed, last, hrun, hruns, hchecked, fun hne => hjoined (Or.inr hne)⟩
  | pattern text chain =>
      refine ⟨fun hliteral => (by cases hliteral), fun _ => ?_⟩
      exact ⟨fun edit => edit.outcome_pattern text chain, stages_pattern text chain edits⟩

/-- Positions and counts are the greatest machine words, and more is taken off than there is. -/
theorem run_eq_ok_and_runs_of_greatest_words :
    let top := Numeral.wordLimit - 1
    let path := ofSegments [.key (.name "a"), .key (.index 0), .key (.name "b")]
    let other := ofSegments [.key (.name "x"), .key (.index 3)]
    let edits : List Edit := [.splice top top [.path other], .slice (.excluded 0) (.included top),
      .splice 1 top [.path other], .pop, .parent, .parent, .pop, .concat (.path other)]
    let handed := [[], [], [.key (.name "b"), .key (.name "x"), .key (.index 3)],
      [.key (.index 3)], [], [], [], []]
    path.isMatch = false ∧ (∀ edit ∈ edits, edit.IsSequential) ∧
      (∀ stage ∈ path.stages edits, stage.segments.length < Numeral.wordLimit) ∧
      Edit.run (fun path edit => edit.outcome path) path edits = .ok (handed, other) ∧
      Edit.Runs path.segments edits handed other.segments ∧
      Edit.run Edit.checked? path.segments edits = some (handed, other.segments) ∧
      other.entire = joinSegments other.segments := by
  intro top path other edits handed
  have hsequential : ∀ edit ∈ edits, edit.IsSequential := by
    simp [edits, Edit.IsSequential]
  have hlengths : ∀ stage ∈ path.stages edits, stage.segments.length < Numeral.wordLimit := by
    decide
  have hvalue : Edit.run (fun path edit => edit.outcome path) path edits = .ok (handed, other) :=
    rfl
  obtain ⟨⟨handed', last, hrun, hruns, hchecked, hjoined⟩, -⟩ :=
    (run_eq_ok_and_runs path hsequential).1 rfl
  rw [hvalue] at hrun
  cases hrun
  exact ⟨rfl, hsequential, hlengths, hvalue, hruns, hchecked hlengths,
    hjoined (List.cons_ne_nil _ _)⟩

end Path

end DocPath
