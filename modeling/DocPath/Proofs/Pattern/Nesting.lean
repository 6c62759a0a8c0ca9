import DocPath.Proofs.Pattern.Order

/-! # Groups as members of groups

A literal step may end its chain before the candidate ends only where every open group goes on,
so a group that stands alone in another one may stop its members where it would not by itself. -/

namespace DocPath

/-! ## Chains that do not ask for the open groups -/

mutual

/-- No chain in a step ends in a literal step. -/
def Step.loose : Step → Bool
  | .group _ members => membersLoose members
  | .name .. | .verbatim _ | .any | .range _ | .destructor _ => true

/-- Neither the chain nor a member of a group in it ends in a literal step. -/
def chainLoose : List Step → Bool
  | [] => true
  | step :: rest => step.loose && (if rest.isEmpty then step.isWildcard else chainLoose rest)

def membersLoose : List (List Step) → Bool
  | [] => true
  | member :: others => chainLoose member && membersLoose others

end

theorem membersLoose_iff {members : List Chain} :
    membersLoose members = true ↔ ∀ member ∈ members, chainLoose member = true := by
  induction members with
  | nil => simp [membersLoose]
  | cons member others ih => rw [membersLoose, Bool.and_eq_true, ih, List.forall_mem_cons]

theorem chainLoose_of_mem_members {step : Step} (h : step.loose = true) {member : Chain}
    (hm : member ∈ step.members) : chainLoose member = true := by
  cases step with
  | group exclude members => exact membersLoose_iff.mp h member hm
  | _ => cases hm

/-- Literal steps ask two things of the open groups: whether there are any, and whether all of
them go on. -/
def SameOpen (open_ open_' : List Bool) : Prop :=
  open_.isEmpty = open_'.isEmpty ∧ open_.all id = open_'.all id

variable {open_ open_' : List Bool} {last : Bool} {position : List String}

theorem SameOpen.cons (h : SameOpen open_ open_') (goesOn : Bool) :
    SameOpen (goesOn :: open_) (goesOn :: open_') :=
  ⟨rfl, by rw [List.all_cons, List.all_cons, h.2]⟩

theorem SameOpen.mayEnd_eq (h : SameOpen open_ open_') (position : List String) :
    mayEnd open_ position = mayEnd open_' position := by
  rw [mayEnd, mayEnd, h.1, h.2]

theorem matchesAny_congr {members : List Chain}
    (h : ∀ member ∈ members,
      matchChain open_ member position = matchChain open_' member position) :
    matchesAny open_ members position = matchesAny open_' members position := by
  rw [Bool.eq_iff_iff, matchesAny_iff, matchesAny_iff]
  exact exists_congr fun member => and_congr_right fun hm => by rw [h member hm]

theorem matchFirst_congr {members : List Chain} {next : List String → Option Stand}
    (h : ∀ member ∈ members,
      matchChain open_ member position = matchChain open_' member position) :
    matchFirst open_ members position next = matchFirst open_' members position next := by
  induction members with
  | nil => rw [matchFirst, matchFirst]
  | cons member others ih =>
      obtain ⟨hmember, hothers⟩ := List.forall_mem_cons.mp h
      rw [matchFirst_cons, matchFirst_cons, hmember, ih hothers]

/-- A step asks for the open groups itself only as a literal at the end of its chain. -/
theorem matchStep_congr {step : Step} {next : List String → Option Stand}
    (hend : last = false ∨ step.isWildcard = true ∨
      ∀ position, mayEnd open_ position = mayEnd open_' position)
    (hm : ∀ member ∈ step.members, matchChain ((!last) :: open_) member position =
      matchChain ((!last) :: open_') member position) :
    matchStep open_ last step position next = matchStep open_' last step position next := by
  by_cases hgroup : step.isGroup = false
  · cases position with
    | nil => rw [matchStep_nil hgroup, matchStep_nil hgroup]
    | cons text more =>
        rw [matchStep_cons hgroup, matchStep_cons hgroup]
        rcases hend with rfl | hwild | hend
        · rfl
        · have hliteral : step.literalScore? text = none := by
            have hs := literalScore?_isSome_iff step text
            simpa [hwild] using hs
          rw [hliteral]
        · rw [hend]
  · obtain ⟨exclude, members, rfl⟩ := exists_eq_group hgroup
    rw [Step.members] at hm
    cases exclude with
    | true => rw [matchStep, matchStep, matchesAny_congr hm]
    | false => rw [matchStep, matchStep, matchFirst_congr hm]

/-- A chain is matched alike inside different open groups if it does not ask for them, or if
they give the same answers. The induction takes all open groups, since members are tried inside
one more. -/
theorem matchChain_congr {chain : Chain}
    (h : chainLoose chain = true ∨ SameOpen open_ open_') (position : List String) :
    matchChain open_ chain position = matchChain open_' chain position := by
  induction chain using Chain.induction generalizing open_ open_' position with
  | nil => rw [matchChain, matchChain]
  | @cons step rest ihMembers ihRest =>
      have hrest : ∀ stand, rest.isEmpty = false →
          matchChain open_ rest stand = matchChain open_' rest stand := by
        intro stand hne
        refine ihRest (h.imp_left ?_) stand
        intro hloose
        simpa [chainLoose, hne] using (Bool.and_eq_true_iff.mp hloose).2
      have hnext : (fun stand : List String =>
          if rest.isEmpty then some (stand, 0) else matchChain open_ rest stand.tail) =
          fun stand =>
            if rest.isEmpty then some (stand, 0) else matchChain open_' rest stand.tail := by
        funext stand
        cases hempty : rest.isEmpty with
        | true => rfl
        | false => simpa using hrest stand.tail hempty
      rw [matchChain, matchChain, hnext]
      refine matchStep_congr ?_ ?_
      · cases hempty : rest.isEmpty with
        | false => exact Or.inl rfl
        | true =>
            refine Or.inr (h.imp ?_ SameOpen.mayEnd_eq)
            intro hloose
            simpa [chainLoose, hempty] using (Bool.and_eq_true_iff.mp hloose).2
      · intro member hm
        refine ihMembers member hm (h.imp ?_ (SameOpen.cons · _)) position
        intro hloose
        exact chainLoose_of_mem_members (Bool.and_eq_true_iff.mp hloose).1 hm

/-! ## A group as the only member of a group -/

variable {members : List Chain} {rest : Chain}

/-- What follows a group in its chain. -/
theorem isSome_matchChain_group_iff :
    (matchChain open_ (.group false members :: rest) position).isSome = true ↔
      position ≠ [] ∧ ∃ member ∈ members, ∃ stand,
        StandsAt (matchChain ((!rest.isEmpty) :: open_) member position) stand ∧
          (rest = [] ∨ (matchChain open_ rest stand.tail).isSome = true) := by
  rw [matchChain, matchStep_member_isSome_iff]
  cases rest with
  | nil => simp
  | cons after rest => simp

/-- A group that stands alone in another one is tried as one that does not go on. -/
theorem matchesAny_wrapped (hne : position ≠ []) :
    matchesAny open_ [[.group false members]] position =
      matchesAny (false :: open_) members position := by
  rw [matchesAny, matchesAny, Bool.or_false, Bool.eq_iff_iff, isSome_matchChain_group_iff,
    matchesAny_iff, and_iff_right hne]
  simp

/-- Members that all end at one place leave what follows them there. -/
theorem exists_standsAt_level_iff {n : Nat} (hn : membersAdvance? members = some n)
    {follows : List String → Prop} :
    (∃ member ∈ members, ∃ stand, StandsAt (matchChain open_ member position) stand ∧
      follows stand) ↔ matchesAny open_ members position = true ∧ follows (position.drop n) := by
  have hall := (membersAdvance?_eq_some_iff.mp hn).2
  rw [matchesAny_iff]
  constructor
  · intro h
    obtain ⟨member, hm, stand, hstand, hfollows⟩ := h
    obtain rfl := eq_drop_of_standsAt (hall member hm) hstand
    exact ⟨⟨member, hm, _, hstand⟩, hfollows⟩
  · intro h
    obtain ⟨⟨member, hm, stand, hstand⟩, hfollows⟩ := h
    obtain rfl := eq_drop_of_standsAt (hall member hm) hstand
    exact ⟨member, hm, _, hstand, hfollows⟩

/-- A group may stand alone in another one if nothing follows, or if its members all end at one
place and none of them ends in a literal step. -/
theorem matched_wrapped_eq (h : rest = [] ∨ level members = true ∧ membersLoose members = true)
    (candidate : List Segment) :
    (Chain.matchRecord (.group false [[.group false members]] :: rest) candidate).matched =
      (Chain.matchRecord (.group false members :: rest) candidate).matched := by
  cases candidate with
  | nil => rfl
  | cons segment more =>
      have hc : segment :: more ≠ [] := List.cons_ne_nil segment more
      have hne : (segment :: more).map Segment.render ≠ [] := List.cons_ne_nil _ _
      rw [matchRecord_matched_eq_isSome hc, matchRecord_matched_eq_isSome hc, Bool.eq_iff_iff,
        isSome_matchChain_group_iff, isSome_matchChain_group_iff]
      refine and_congr_right' ?_
      have hopen : ∀ member ∈ members, ∀ position,
          matchChain [false, !rest.isEmpty] member position =
            matchChain [!rest.isEmpty] member position := by
        intro member hm
        refine matchChain_congr ?_
        rcases h with rfl | ⟨-, hloose⟩
        · exact Or.inr ⟨rfl, rfl⟩
        · exact Or.inl (membersLoose_iff.mp hloose member hm)
      have hany := (matchesAny_wrapped hne).trans
        (matchesAny_congr fun member hm => hopen member hm _)
      rcases h with rfl | ⟨hlevel, -⟩
      · simp only [true_or, and_true]
        rw [← matchesAny_iff, ← matchesAny_iff, hany]
      · obtain ⟨n, hn⟩ := Option.isSome_iff_exists.mp hlevel
        have hwrapped : membersAdvance? [[.group false members]] = some n := by
          rw [membersAdvance?_eq_some_iff, List.forall_mem_singleton]
          exact ⟨List.cons_ne_nil _ _, hn⟩
        rw [exists_standsAt_level_iff hwrapped, exists_standsAt_level_iff hn, hany]

/-- Members that end behind two texts, each in a range, with a name behind the group. -/
theorem matched_wrapped_eq_of_ranges :
    let members : List Chain := [[.name "a" false false, .range ⟨some 1, none⟩],
      [.any, .range ⟨none, some 0⟩]]
    let rest : Chain := [.name "k" false false]
    let candidate : List Segment :=
      [.key (.name "b"), .key (.index 0), .key (.name "k")]
    (level members = true ∧ membersLoose members = true) ∧
      (Chain.matchRecord (.group false members :: rest) candidate).matched = true ∧
      (Chain.matchRecord (.group false [[.group false members]] :: rest) candidate).matched =
        (Chain.matchRecord (.group false members :: rest) candidate).matched := by
  intro members rest candidate
  have h : level members = true ∧ membersLoose members = true := by decide
  exact ⟨h, by decide, matched_wrapped_eq (Or.inr h) candidate⟩

/-- The inner group does not go on, so its literal member may not end before the candidate does,
although what the outer group is followed by would take the rest. -/
theorem matched_wrapped_ne_of_literal :
    let members : List Chain := [[.name "a" false false]]
    let rest : Chain := [.name "b" false false]
    let wrapped : Chain := .group false [[.group false members]] :: rest
    let candidate : List Segment := [.key (.name "a"), .key (.name "b")]
    Chain.parse "*(*(a)).b" = .ok wrapped ∧
      Chain.parse "*(a).b" = .ok (.group false members :: rest) ∧
      (wrapped.matchRecord candidate).matched = false ∧
      (Chain.matchRecord (.group false members :: rest) candidate).matched = true := by
  intro members rest wrapped candidate
  have hwrapped : Chain.parse "*(*(a)).b" = .ok wrapped := by decide +kernel
  have hplain : Chain.parse "*(a).b" = .ok (.group false members :: rest) := by decide +kernel
  exact ⟨hwrapped, hplain, by decide, by decide⟩

end DocPath
