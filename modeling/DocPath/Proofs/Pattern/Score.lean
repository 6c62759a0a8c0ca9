import DocPath.Proofs.Pattern.Order

/-! # Scores

A step scores what it is worth, on whatever text it takes. A match takes its texts one behind
the other, so that each counts once at most. -/

namespace DocPath

/-! ## Single steps -/

namespace Step

/-- What a step scores on every text that it accepts. -/
def worth : Step → Nat
  | .name _ _ true => Score.expanded
  | .name _ _ false | .verbatim _ | .destructor _ => Score.literal
  | .range _ => Score.range
  | .any => Score.any
  | .group .. => Score.excluded

theorem worth_le (step : Step) : step.worth ≤ Score.literal := by
  cases step with
  | name text bracketed expand => cases expand <;> simp [worth, Score.literal, Score.expanded]
  | _ => simp [worth, Score.literal, Score.range, Score.any, Score.excluded]

theorem eq_worth_of_wildcardScore? {step : Step} {text : String} {score : Nat}
    (h : step.wildcardScore? text = some score) : score = step.worth := by
  cases step with
  | any =>
      cases h
      rfl
  | range bounds =>
      rw [wildcardScore?] at h
      split at h
      · exact (Option.some.inj (Option.ite_none_right_eq_some.mp h).2).symm
      · cases h
  | _ => cases h

theorem eq_worth_of_literalScore? {step : Step} {text : String} {score : Nat}
    (h : step.literalScore? text = some score) : score = step.worth := by
  cases step with
  | name own bracketed expand =>
      cases expand with
      | false => exact (Option.some.inj (Option.ite_none_right_eq_some.mp h).2).symm
      | true => exact (Option.some.inj (Option.ite_none_right_eq_some.mp h).2).symm
  | verbatim body => exact (Option.some.inj (Option.ite_none_right_eq_some.mp h).2).symm
  | destructor d => exact (Option.some.inj (Option.ite_none_right_eq_some.mp h).2).symm
  | _ => cases h

end Step

variable {open_ : List Bool} {last : Bool} {position : List String}
  {next : List String → Option Stand} {result : Stand}

/-- A step without members that matches takes the next text and scores what it is worth. -/
theorem exists_of_matchStep_plain {step : Step} (h : step.isGroup = false)
    (hresult : matchStep open_ last step position next = some result) :
    ∃ text more after, position = text :: more ∧ step.Accepts text ∧
      next position = some after ∧ (after.1, step.worth + after.2) = result := by
  obtain ⟨text, more, rfl, haccepts, -, -⟩ :=
    (standsAt_matchStep_iff h).mp ⟨result.2, hresult⟩
  have hafter : ∃ score, score = step.worth ∧
      Stand.andThen (text :: more, score) next = some result := by
    rw [matchStep_cons h] at hresult
    split at hresult
    · rename_i score hscore
      exact ⟨score, Step.eq_worth_of_wildcardScore? hscore, hresult⟩
    · split at hresult
      · rename_i score hscore
        exact ⟨score, Step.eq_worth_of_literalScore? hscore,
          (Option.ite_none_right_eq_some.mp hresult).2⟩
      · cases hresult
  obtain ⟨_, rfl, hnext⟩ := hafter
  obtain ⟨after, hafter, heq⟩ := andThen_eq_some_iff.mp hnext
  exact ⟨text, more, after, rfl, haccepts, hafter, heq⟩

theorem next_of_matchStep_exclusion {members : List Chain}
    (hresult : matchStep open_ last (.group true members) position next = some result) :
    next position = some result := by
  rw [matchStep] at hresult
  split at hresult
  · exact hresult
  · split at hresult
    · cases hresult
    · obtain ⟨after, hafter, rfl⟩ := andThen_eq_some_iff.mp hresult
      rw [hafter, Score.excluded, Nat.zero_add]

/-! ## The course of a match -/

/-- A course through a chain, from a position to what is left behind it: the steps that take a
text, each with the position at which it does. Of a group one member is gone through, and of a
group that excludes none; such a group passes over the text it stands at, and may stand behind
the last text. -/
inductive Course : Chain → List String → List String → List (List String × Step) → Prop where
  | nil {position : List String} : Course [] position position []
  | step {step : Step} {rest : Chain} {text : String} {more behind : List String}
      {taken : List (List String × Step)} : step.isGroup = false → step.Accepts text →
      Course rest more behind taken →
      Course (step :: rest) (text :: more) behind ((text :: more, step) :: taken)
  | member {members : List Chain} {member rest : Chain} {position between behind : List String}
      {inner taken : List (List String × Step)} : member ∈ members →
      Course member position between inner → Course rest between behind taken →
      Course (.group false members :: rest) position behind (inner ++ taken)
  | exclusion {members : List Chain} {rest : Chain} {position behind : List String}
      {taken : List (List String × Step)} : Course rest position.tail behind taken →
      Course (.group true members :: rest) position behind taken

/-- What the steps of a course score together. -/
def courseScore (taken : List (List String × Step)) : Nat := (taken.map fun t => t.2.worth).sum

namespace Course

variable {chain : Chain} {behind : List String} {taken : List (List String × Step)}

theorem suffix (h : Course chain position behind taken) : behind <:+ position := by
  induction h with
  | nil => exact List.suffix_rfl
  | step _ _ _ ih => exact ih.trans (List.suffix_cons _ _)
  | member _ _ _ ihMember ihRest => exact ihRest.trans ihMember
  | exclusion _ ih => exact ih.trans (List.tail_suffix _)

theorem suffix_of_mem (h : Course chain position behind taken) :
    ∀ t ∈ taken, t.1 <:+ position ∧ behind <:+ t.1.tail := by
  induction h with
  | nil => simp
  | step _ _ hrest ih =>
      refine List.forall_mem_cons.mpr ⟨⟨List.suffix_rfl, hrest.suffix⟩, fun t ht => ?_⟩
      exact ⟨(ih t ht).1.trans (List.suffix_cons _ _), (ih t ht).2⟩
  | member _ hmember hrest ihMember ihRest =>
      refine List.forall_mem_append.mpr ⟨fun t ht => ?_, fun t ht => ?_⟩
      · exact ⟨(ihMember t ht).1, hrest.suffix.trans (ihMember t ht).2⟩
      · exact ⟨(ihRest t ht).1.trans hmember.suffix, (ihRest t ht).2⟩
  | exclusion _ ih => exact fun t ht => ⟨(ih t ht).1.trans (List.tail_suffix _), (ih t ht).2⟩

/-- Each text is taken behind the one before, so none is taken twice. -/
theorem pairwise (h : Course chain position behind taken) :
    taken.Pairwise fun t t' => t'.1 <:+ t.1.tail := by
  induction h with
  | nil => exact .nil
  | step _ _ hrest ih => exact .cons (fun t ht => (hrest.suffix_of_mem t ht).1) ih
  | member _ hmember hrest ihMember ihRest =>
      refine List.pairwise_append.mpr ⟨ihMember, ihRest, fun t ht t' ht' => ?_⟩
      exact (hrest.suffix_of_mem t' ht').1.trans (hmember.suffix_of_mem t ht).2
  | exclusion _ ih => exact ih

theorem ne_nil_of_mem (h : Course chain position behind taken) : ∀ t ∈ taken, t.1 ≠ [] := by
  induction h with
  | nil => simp
  | step _ _ _ ih => exact List.forall_mem_cons.mpr ⟨List.cons_ne_nil _ _, ih⟩
  | member _ _ _ ihMember ihRest => exact List.forall_mem_append.mpr ⟨ihMember, ihRest⟩
  | exclusion _ ih => exact ih

/-- What a course has scored and could still score is no more than what it could at first. -/
theorem score_add_le (h : Course chain position behind taken) :
    courseScore taken + Score.literal * behind.length ≤ Score.literal * position.length := by
  induction h with
  | nil => simp [courseScore]
  | @step step rest text more behind taken _ _ _ ih =>
      have hworth := step.worth_le
      simp only [courseScore, List.map_cons, List.sum_cons, List.length_cons, Nat.mul_add] at ih ⊢
      omega
  | member _ _ _ ihMember ihRest =>
      simp only [courseScore, List.map_append, List.sum_append] at ihMember ihRest ⊢
      omega
  | @exclusion _ _ position _ _ _ ih =>
      have htail := Nat.mul_le_mul_left Score.literal (List.tail_suffix position).length_le
      omega

/-- A course through steps without members goes through all of them. -/
theorem map_snd_of_plain (h : Course chain position behind taken)
    (hplain : ∀ step ∈ chain, step.isGroup = false) : taken.map Prod.snd = chain := by
  induction h with
  | nil => rfl
  | step _ _ _ ih => rw [List.map_cons, ih (List.forall_mem_cons.mp hplain).2]
  | member => cases (List.forall_mem_cons.mp hplain).1
  | exclusion => cases (List.forall_mem_cons.mp hplain).1

end Course

/-! ## Matches -/

/-- A match goes along a course, and its score is that of the course. The induction takes any
open groups and any position, as members and what follows them do. -/
theorem exists_course {chain : Chain} (hne : chain ≠ [])
    (hm : ∀ step ∈ chain, ∀ member ∈ step.members, Chain.WellFormed member)
    (h : matchChain open_ chain position = some result) :
    ∃ taken, Course chain position result.1.tail taken ∧ courseScore taken = result.2 := by
  induction chain using Chain.induction generalizing open_ position result with
  | nil => exact absurd rfl hne
  | @cons step rest ihMembers ihRest =>
      obtain ⟨hmembers, hrest⟩ := List.forall_mem_cons.mp hm
      have hnext : ∀ {stand : List String} {after : Stand},
          (if rest.isEmpty then some (stand, 0) else matchChain open_ rest stand.tail) =
            some after →
          ∃ taken, Course rest stand.tail after.1.tail taken ∧ courseScore taken = after.2 := by
        intro stand after hafter
        cases rest with
        | nil =>
            cases hafter
            exact ⟨[], .nil, rfl⟩
        | cons behind rest => exact ihRest (List.cons_ne_nil _ _) hrest hafter
      rw [matchChain] at h
      by_cases hgroup : step.isGroup = false
      · obtain ⟨text, more, after, rfl, haccepts, hafter, rfl⟩ := exists_of_matchStep_plain hgroup h
        obtain ⟨taken, hcourse, hscore⟩ := hnext hafter
        refine ⟨_, .step hgroup haccepts hcourse, ?_⟩
        rw [← hscore]
        rfl
      · obtain ⟨exclude, members, rfl⟩ := exists_eq_group hgroup
        cases exclude with
        | true =>
            obtain ⟨taken, hcourse, hscore⟩ := hnext (next_of_matchStep_exclusion h)
            exact ⟨taken, .exclusion hcourse, hscore⟩
        | false =>
            have hfirst : matchFirst ((!rest.isEmpty) :: open_) members position _ = some result :=
              (Option.ite_none_left_eq_some.mp (by rwa [matchStep] at h)).2
            obtain ⟨member, hmem, inner, after, hinner, hafter, rfl⟩ :=
              exists_of_matchFirst_eq_some hfirst
            have hwell := hmembers member hmem
            obtain ⟨taken, hcourse, hscore⟩ := ihMembers member hmem hwell.ne_nil
              hwell.of_mem_members hinner
            obtain ⟨taken', hcourse', hscore'⟩ := hnext hafter
            refine ⟨_, .member hmem hcourse hcourse', ?_⟩
            rw [courseScore, List.map_append, List.sum_append]
            exact congrArg₂ _ hscore hscore'

end DocPath
