import DocPath.Proofs.Pattern.Score

/-! # One counter for the score

The score of a match can be kept in one counter of a machine word, which members and what
follows them add to before it is known whether they match, and which is set back where they do
not. It never holds more than the candidate would score against itself. -/

namespace DocPath

/-! ## Matching with a counter -/

/-- The counter cannot hold what it should. -/
inductive CounterFault where
  | overflow

/-- Counters are words of 32 bits. -/
def counterLimit : Nat := UInt32.size

/-- The counter behind a step. -/
def countUp (count score : Nat) : Except CounterFault Nat :=
  if count + score < counterLimit then .ok (count + score) else .error .overflow

/-- Where a match came to stand with a counter, if it did. -/
abbrev Count := Except CounterFault (Option Stand)

mutual

/-- Matches a chain at a position, with a counter that holds what was scored before. -/
def countChain (open_ : List Bool) : Chain → List String → Nat → Count
  | [], position, count => .ok (some (position, count))
  | step :: rest, position, count =>
      countStep open_ rest.isEmpty step position count fun stand count =>
        if rest.isEmpty then .ok (some (stand, count)) else countChain open_ rest stand.tail count

def countStep (open_ : List Bool) (last : Bool) :
    Step → List String → Nat → (List String → Nat → Count) → Count
  | .group true members, position, count, next =>
      if position.isEmpty then next position count
      else do
        if ← countAny ((!last) :: open_) members position count then return none
        let count ← countUp count Score.excluded
        next position count
  | .group false members, position, count, next =>
      if position.isEmpty then .ok none
      else countFirst ((!last) :: open_) members position count next
  | _, [], _, _ => .ok none
  | step, text :: more, count, next =>
      match step.wildcardScore? text with
      | some score => do next (text :: more) (← countUp count score)
      | none =>
        match step.literalScore? text with
        | some score =>
            if !last || mayEnd open_ (text :: more) then do
              next (text :: more) (← countUp count score)
            else .ok none
        | none => .ok none

/-- Whether some member matches. What members add to the counter is forgotten. -/
def countAny (open_ : List Bool) :
    List Chain → List String → Nat → Except CounterFault Bool
  | [], _, _ => .ok false
  | member :: others, position, count => do
      if (← countChain open_ member position count).isSome then return true
      countAny open_ others position count

/-- The first member that matches, so that what follows the group does too. The counter is set
back for the next member. -/
def countFirst (open_ : List Bool) :
    List Chain → List String → Nat → (List String → Nat → Count) → Count
  | [], _, _, _ => .ok none
  | member :: others, position, count, next => do
      match ← countChain open_ member position count with
      | none => countFirst open_ others position count next
      | some inner =>
          match ← next inner.1 inner.2 with
          | none => countFirst open_ others position count next
          | some stand => return some stand

end

/-- Matches a whole candidate with a counter that starts at zero. -/
def Chain.countRecord (chain : Chain) (candidate : List Segment) :
    Except CounterFault MatchRecord :=
  if candidate.isEmpty then .ok .unmatched
  else do
    match ← countChain [] chain (candidate.map Segment.render) 0 with
    | some stand => return ⟨true, stand.2⟩
    | none => return .unmatched

/-! ## Single steps -/

/-- A stand reached with a counter that held something before. -/
def Stand.above (count : Nat) (stand : Stand) : Stand := (stand.1, count + stand.2)

theorem Stand.above_above (count count' : Nat) (stand : Stand) :
    Stand.above count (Stand.above count' stand) = Stand.above (count + count') stand :=
  Prod.ext rfl (Nat.add_assoc ..).symm

theorem Stand.map_above_andThen (count : Nat) (stand : Stand)
    (next : List String → Option Stand) :
    (stand.andThen next).map (Stand.above count) =
      (next stand.1).map (Stand.above (count + stand.2)) := by
  rw [Stand.andThen, Option.map_map]
  exact congrArg (Option.map · _) (funext (Stand.above_above count stand.2))

/-- What follows a step goes on with the counter as it goes on without, as long as the texts
behind the step find room in the counter. -/
def CountsOn (next : List String → Option Stand) (next' : List String → Nat → Count) : Prop :=
  ∀ position count, count + Score.literal * position.tail.length < counterLimit →
    next' position count = .ok ((next position).map (Stand.above count))

variable {open_ : List Bool} {last : Bool} {position : List String} {count : Nat}
  {next : List String → Option Stand} {next' : List String → Nat → Count}

theorem countUp_eq_ok {score : Nat} (h : count + score < counterLimit) :
    countUp count score = .ok (count + score) :=
  if_pos h

theorem countStep_nil {step : Step} (h : step.isGroup = false) :
    countStep open_ last step [] count next' = .ok none := by
  cases step with
  | group exclude members => cases h
  | _ => rw [countStep] <;> simp

theorem countStep_cons {step : Step} (h : step.isGroup = false) (text : String)
    (more : List String) :
    countStep open_ last step (text :: more) count next' =
      match step.wildcardScore? text with
      | some score => (countUp count score).bind (next' (text :: more))
      | none =>
        match step.literalScore? text with
        | some score =>
            if !last || mayEnd open_ (text :: more) then
              (countUp count score).bind (next' (text :: more))
            else .ok none
        | none => .ok none := by
  cases step with
  | group exclude members => cases h
  | _ => rw [countStep] <;> first | rfl | simp

/-- A step scores no more than the text it takes leaves room for. -/
theorem countUp_bind_eq {text : String} {more : List String} {score : Nat}
    (hscore : score ≤ Score.literal) (hnext : CountsOn next next')
    (h : count + Score.literal * (text :: more).length < counterLimit) :
    (countUp count score).bind (next' (text :: more)) =
      .ok ((Stand.andThen (text :: more, score) next).map (Stand.above count)) := by
  rw [List.length_cons, Nat.mul_succ] at h
  have hroom : count + score + Score.literal * more.length < counterLimit := by omega
  rw [countUp_eq_ok (Nat.lt_of_le_of_lt (Nat.le_add_right ..) hroom), Except.bind,
    hnext _ _ hroom, Stand.map_above_andThen]

/-! ## Members -/

/-- The members of a group are matched alike with the counter, and leave room in it. -/
structure CountsMembers (open_ : List Bool) (members : List Chain) (position : List String)
    (count : Nat) : Prop where
  counted : ∀ member ∈ members, countChain open_ member position count =
    .ok ((matchChain open_ member position).map (Stand.above count))
  bounded : ∀ member ∈ members, ∀ inner, matchChain open_ member position = some inner →
    inner.2 + Score.literal * inner.1.tail.length ≤ Score.literal * position.length

theorem CountsMembers.tail {member : Chain} {others : List Chain}
    (h : CountsMembers open_ (member :: others) position count) :
    CountsMembers open_ others position count :=
  ⟨(List.forall_mem_cons.mp h.counted).2, (List.forall_mem_cons.mp h.bounded).2⟩

theorem countAny_eq {members : List Chain} (h : CountsMembers open_ members position count) :
    countAny open_ members position count = .ok (matchesAny open_ members position) := by
  induction members with
  | nil => rw [countAny, matchesAny]
  | cons member others ih =>
      rw [countAny, matchesAny, h.counted member List.mem_cons_self]
      cases matchChain open_ member position with
      | none => exact ih h.tail
      | some inner => rfl

theorem countFirst_cons {member : Chain} {others : List Chain} {inner result : Option Stand}
    (hinner : countChain open_ member position count = .ok inner)
    (hresult : ∀ stand, inner = some stand → next' stand.1 stand.2 = .ok result)
    (hnone : inner = none → result = none) :
    countFirst open_ (member :: others) position count next' =
      result.elim (countFirst open_ others position count next') fun stand => .ok (some stand) := by
  rw [countFirst, hinner]
  cases inner with
  | none =>
      obtain rfl := hnone rfl
      rfl
  | some stand =>
      simp only [bind, Except.bind, hresult stand rfl]
      cases result <;> rfl

theorem countFirst_eq {members : List Chain} (h : CountsMembers open_ members position count)
    (hnext : CountsOn next next')
    (hroom : count + Score.literal * position.length < counterLimit) :
    countFirst open_ members position count next' =
      .ok ((matchFirst open_ members position next).map (Stand.above count)) := by
  induction members with
  | nil =>
      rw [countFirst, matchFirst]
      rfl
  | cons member others ih =>
      have hmember := h.counted member List.mem_cons_self
      have hbound := h.bounded member List.mem_cons_self
      have hfirst : countFirst open_ (member :: others) position count next' =
          (((matchChain open_ member position).bind (Stand.andThen · next)).map
            (Stand.above count)).elim (countFirst open_ others position count next')
              fun stand => .ok (some stand) := by
        refine countFirst_cons hmember ?_ ?_
        · intro stand hstand
          obtain ⟨inner, hinner, rfl⟩ := Option.map_eq_some_iff.mp hstand
          have hleft : count + inner.2 + Score.literal * inner.1.tail.length < counterLimit := by
            have := hbound inner hinner
            omega
          rw [hinner, Option.bind_some, Stand.map_above_andThen]
          exact hnext inner.1 (count + inner.2) hleft
        · intro hnone
          rw [Option.map_eq_none_iff.mp hnone]
          rfl
      rw [hfirst, matchFirst, ih h.tail]
      cases (matchChain open_ member position).bind (Stand.andThen · next) <;> rfl

/-! ## Whole matches -/

theorem countStep_eq {step : Step}
    (hmembers : CountsMembers ((!last) :: open_) step.members position count)
    (hnext : CountsOn next next')
    (h : count + Score.literal * position.length < counterLimit) :
    countStep open_ last step position count next' =
      .ok ((matchStep open_ last step position next).map (Stand.above count)) := by
  by_cases hgroup : step.isGroup = false
  · cases position with
    | nil => rw [countStep_nil hgroup, matchStep_nil hgroup, Option.map_none]
    | cons text more =>
        have hwild : ∀ score, step.wildcardScore? text = some score → score ≤ Score.literal :=
          fun score hs => Step.eq_worth_of_wildcardScore? hs ▸ step.worth_le
        have hliteral : ∀ score, step.literalScore? text = some score → score ≤ Score.literal :=
          fun score hs => Step.eq_worth_of_literalScore? hs ▸ step.worth_le
        rw [countStep_cons hgroup, matchStep_cons hgroup]
        cases hs : step.wildcardScore? text with
        | some score => exact countUp_bind_eq (hwild score hs) hnext h
        | none =>
            cases hs' : step.literalScore? text with
            | none => rfl
            | some score =>
                by_cases hend : (!last || mayEnd open_ (text :: more)) = true
                · simp only [hend, if_true]
                  exact countUp_bind_eq (hliteral score hs') hnext h
                · simp only [hend]
                  rfl
  · obtain ⟨exclude, members, rfl⟩ := exists_eq_group hgroup
    have hroom : count + Score.literal * position.tail.length < counterLimit := by
      have htail := Nat.mul_le_mul_left Score.literal (List.tail_suffix position).length_le
      omega
    cases exclude with
    | true =>
        have hcount : countUp count Score.excluded = .ok count :=
          countUp_eq_ok (Nat.lt_of_le_of_lt (Nat.le_add_right ..) h)
        rw [countStep, matchStep]
        split
        · exact hnext position count hroom
        · have hany := countAny_eq hmembers
          rw [Step.members] at hany
          rw [hany]
          cases matchesAny ((!last) :: open_) members position with
          | true => rfl
          | false =>
              simp only [bind, Except.bind, Bool.false_eq_true, if_false, hcount]
              rw [Stand.map_above_andThen]
              exact hnext position count hroom
    | false =>
        rw [countStep, matchStep]
        split
        · rfl
        · exact countFirst_eq hmembers hnext h

/-- A match with a counter that has room for all texts comes to the same as the match without.
The induction takes any counter, since members and what follows them start with one that has
been added to. -/
theorem countChain_eq {chain : Chain}
    (hm : ∀ step ∈ chain, ∀ member ∈ step.members, Chain.WellFormed member)
    (h : count + Score.literal * position.length < counterLimit) :
    countChain open_ chain position count =
      .ok ((matchChain open_ chain position).map (Stand.above count)) := by
  induction chain using Chain.induction generalizing open_ position count with
  | nil =>
      rw [countChain, matchChain]
      rfl
  | @cons step rest ihMembers ihRest =>
      obtain ⟨hmembers, hrest⟩ := List.forall_mem_cons.mp hm
      rw [countChain, matchChain]
      refine countStep_eq ⟨?_, ?_⟩ ?_ h
      · exact fun member hmem => ihMembers member hmem (hmembers member hmem).of_mem_members h
      · intro member hmem inner hinner
        have hwell := hmembers member hmem
        obtain ⟨taken, hcourse, hscore⟩ := exists_course hwell.ne_nil hwell.of_mem_members hinner
        exact hscore ▸ hcourse.score_add_le
      · intro stand count' hroom
        cases rest with
        | nil => rfl
        | cons after rest => exact ihRest hrest hroom

/-! ## Patterns read from texts -/

theorem Chain.parse_members {text : String} {chain : Chain} (hp : Chain.parse text = .ok chain) :
    ∀ step ∈ chain, ∀ member ∈ step.members, Chain.WellFormed member :=
  fun step hs => (Chain.wellFormed_of_parse hp (List.ne_nil_of_mem hs)).of_mem_members step hs

theorem Chain.score_of_not_matched {chain : Chain} {candidate : List Segment}
    (h : (chain.matchRecord candidate).matched = false) :
    (chain.matchRecord candidate).score = 0 := by
  by_cases hc : candidate = []
  · rw [hc]
    rfl
  · rw [matchRecord_of_ne_nil chain hc] at h ⊢
    cases hstand : matchChain [] chain (candidate.map Segment.render) with
    | none => rfl
    | some stand =>
        rw [hstand] at h
        cases h

theorem Chain.exists_course_of_matched {chain : Chain} {candidate : List Segment}
    (hm : ∀ step ∈ chain, ∀ member ∈ step.members, Chain.WellFormed member)
    (h : (chain.matchRecord candidate).matched = true) :
    ∃ behind taken, Course chain (candidate.map Segment.render) behind taken ∧
      courseScore taken = (chain.matchRecord candidate).score := by
  have hc : candidate ≠ [] := by
    rintro rfl
    cases h
  rw [matchRecord_of_ne_nil chain hc] at h ⊢
  cases hstand : matchChain [] chain (candidate.map Segment.render) with
  | none =>
      rw [hstand] at h
      cases h
  | some stand =>
      cases chain with
      | nil =>
          cases hstand
          exact ⟨_, [], .nil, rfl⟩
      | cons step rest =>
          obtain ⟨taken, hcourse, hscore⟩ := exists_course (List.cons_ne_nil step rest) hm hstand
          exact ⟨_, taken, hcourse, hscore⟩

theorem Chain.countRecord_eq {chain : Chain} {candidate : List Segment}
    (hm : ∀ step ∈ chain, ∀ member ∈ step.members, Chain.WellFormed member)
    (h : Score.literal * candidate.length < counterLimit) :
    chain.countRecord candidate = .ok (chain.matchRecord candidate) := by
  rw [countRecord, matchRecord]
  split
  · rfl
  · have hroom : 0 + Score.literal * (candidate.map Segment.render).length < counterLimit := by
      rwa [Nat.zero_add, List.length_map]
    rw [countChain_eq hm hroom]
    cases matchChain [] chain (candidate.map Segment.render) with
    | none => rfl
    | some stand => simp [bind, Except.bind, pure, Except.pure, Stand.above]

/-- A pattern that matches scores what its steps are worth along a course on which no text is
taken twice, and so at most what the candidate scores against itself; the counter never holds
more, whatever is tried on the way. A pattern that does not match scores nothing. -/
theorem matchRecord_score_le {text : String} {chain : Chain}
    (hp : Chain.parse text = .ok chain) (candidate : List Segment) :
    let record := chain.matchRecord candidate
    let texts := candidate.map Segment.render
    (matchSegments candidate candidate).score = 4 * candidate.length ∧
      record.score ≤ (matchSegments candidate candidate).score ∧
      (record.matched = false → record.score = 0) ∧
      (record.matched = true → ∃ behind taken, Course chain texts behind taken ∧
        (∀ t ∈ taken, t.1 <:+ texts ∧ t.1 ≠ []) ∧ (taken.Pairwise fun t t' => t'.1 <:+ t.1.tail) ∧
        record.score = courseScore taken) ∧
      (candidate.length < 2 ^ 30 → chain.countRecord candidate = .ok record) := by
  intro record texts
  have hm := Chain.parse_members hp
  have hself : (matchSegments candidate candidate).score = 4 * candidate.length := by
    rw [matchSegments, if_pos rfl]
    rfl
  have hbound : record.score ≤ 4 * candidate.length := by
    cases hmatched : record.matched with
    | false => exact (Chain.score_of_not_matched hmatched).trans_le (Nat.zero_le _)
    | true =>
        obtain ⟨behind, taken, hcourse, hscore⟩ := Chain.exists_course_of_matched hm hmatched
        have hle := hcourse.score_add_le
        rw [hscore, List.length_map] at hle
        exact (Nat.le_add_right ..).trans hle
  refine ⟨hself, hself ▸ hbound, Chain.score_of_not_matched, fun hmatched => ?_, fun hlength => ?_⟩
  · obtain ⟨behind, taken, hcourse, hscore⟩ := Chain.exists_course_of_matched hm hmatched
    refine ⟨behind, taken, hcourse, fun t ht => ?_, hcourse.pairwise, hscore.symm⟩
    exact ⟨(hcourse.suffix_of_mem t ht).1, hcourse.ne_nil_of_mem t ht⟩
  · refine Chain.countRecord_eq hm ?_
    simp only [Score.literal, counterLimit, UInt32.size]
    omega

/-- The first member of the inner group scores and fails, and the last group stands behind the
candidate. -/
theorem matchRecord_score_behind_failed_member :
    let chain : Chain := [.group false [[.group false
      [[.name "a" false false, .name "b" false false, .any], [.name "a" false false]],
      .range ⟨some 0, some 9⟩]], .group true [[.name "k" false false]]]
    let candidate : List Segment := [.key (.name "a"), .key (.index 7)]
    Chain.parse "*(*(a.b.*,a).*[0:9]).*(!k)" = .ok chain ∧
      chain.matchRecord candidate = ⟨true, 6⟩ ∧
      (chain.matchRecord candidate).score ≤ (matchSegments candidate candidate).score ∧
      chain.countRecord candidate = .ok ⟨true, 6⟩ := by
  intro chain candidate
  have hp : Chain.parse "*(*(a.b.*,a).*[0:9]).*(!k)" = .ok chain := by decide +kernel
  have hrecord : chain.matchRecord candidate = ⟨true, 6⟩ := by decide
  obtain ⟨-, hbound, -, -, hcount⟩ := matchRecord_score_le hp candidate
  exact ⟨hp, hrecord, hbound, hrecord ▸ hcount (by decide)⟩

end DocPath
