import DocPath.Proofs.Equality
import DocPath.Proofs.Pattern.Meaning

/-! # The order of members

A group keeps to the first member behind which its own chain goes on. The order of its members
shows only where two of them can end apart, inside a member of a group that goes on. -/

namespace DocPath

/-- Induction over a chain and over the members of the groups in it. -/
theorem Chain.induction {motive : Chain → Prop} (nil : motive [])
    (cons : ∀ {step rest}, (∀ member ∈ step.members, motive member) → motive rest →
      motive (step :: rest)) (chain : Chain) : motive chain := by
  match chain with
  | [] => exact nil
  | step :: rest =>
      refine cons ?_ (Chain.induction nil cons rest)
      intro member hm
      exact Chain.induction nil cons member
termination_by sizeOf chain
decreasing_by
  · have hlt : sizeOf member < sizeOf step := by
      cases step with
      | group exclude members =>
          have hmember := List.sizeOf_lt_of_mem (show member ∈ members from hm)
          simp only [Step.group.sizeOf_spec]
          omega
      | _ => cases hm
    simp only [List.cons.sizeOf_spec]
    omega
  · simp only [List.cons.sizeOf_spec]
    omega

/-! ## Results that agree -/

/-- There is a match on both sides or on none and, unless only this counts, both stand at the
same position. -/
def Agree (free : Bool) (result result' : Option Stand) : Prop :=
  ((∃ position, StandsAt result position) ↔ ∃ position, StandsAt result' position) ∧
    (free = false → ∀ position, StandsAt result position ↔ StandsAt result' position)

theorem standsAt_unique {result : Option Stand} {position position' : List String}
    (h : StandsAt result position) (h' : StandsAt result position') : position = position' := by
  obtain ⟨score, rfl⟩ := h
  exact (standsAt_some_iff.mp h').symm

namespace Agree

variable {free : Bool} {result result' : Option Stand}

theorem of_standsAt_iff (h : ∀ position, StandsAt result position ↔ StandsAt result' position) :
    Agree free result result' :=
  ⟨exists_congr h, fun _ => h⟩

theorem refl (result : Option Stand) : Agree free result result :=
  of_standsAt_iff fun _ => Iff.rfl

theorem isSome_eq (h : Agree free result result') : result.isSome = result'.isSome := by
  rw [Bool.eq_iff_iff, isSome_iff_standsAt, isSome_iff_standsAt]
  exact h.1

/-- Results agree that stand, each under its own condition, where two others do. -/
theorem of_and {accepted accepted' : Prop} {after after' : Option Stand}
    (h : ∀ position, StandsAt result position ↔ accepted ∧ StandsAt after position)
    (h' : ∀ position, StandsAt result' position ↔ accepted' ∧ StandsAt after' position)
    (ha : accepted ↔ accepted') (hn : Agree free after after') : Agree free result result' := by
  refine ⟨?_, ?_⟩
  · simp only [h, h', exists_and_left]
    exact and_congr ha hn.1
  · intro hfree position
    rw [h, h']
    exact and_congr ha (hn.2 hfree position)

theorem or {other other' : Option Stand} (h : Agree free result result')
    (ho : Agree free other other') : Agree free (result.or other) (result'.or other') := by
  have hsome := h.isSome_eq
  cases result with
  | none =>
      cases result' with
      | none => simpa using ho
      | some stand' => cases hsome
  | some stand =>
      cases result' with
      | none => cases hsome
      | some stand' => simpa using h

theorem bind_andThen {next next' : List String → Option Stand} (h : Agree false result result')
    (hn : ∀ stand, Agree free (next stand) (next' stand)) :
    Agree free (result.bind (Stand.andThen · next)) (result'.bind (Stand.andThen · next')) := by
  have hsome := h.isSome_eq
  cases result with
  | none =>
      cases result' with
      | none => exact refl none
      | some stand' => cases hsome
  | some stand =>
      cases result' with
      | none => cases hsome
      | some stand' =>
          have hstand := (h.2 rfl stand.1).mp (standsAt_some_iff.mpr rfl)
          have hequal : stand.1 = stand'.1 := standsAt_some_iff.mp hstand
          have hafter : Agree free (next stand.1) (next' stand'.1) := hequal ▸ hn stand.1
          refine of_and (fun position => ?_) (fun position => ?_) (Iff.refl True) hafter
          · rw [Option.bind_some, standsAt_andThen_iff, true_and]
          · rw [Option.bind_some, standsAt_andThen_iff, true_and]

end Agree

/-! ## What a step makes of its members and of what follows -/

variable {open_ : List Bool} {last : Bool} {members members' : List Chain}
  {position stand : List String} {next next' : List String → Option Stand}

theorem matchFirst_cons (member : Chain) (others : List Chain) :
    matchFirst open_ (member :: others) position next =
      ((matchChain open_ member position).bind (Stand.andThen · next)).or
        (matchFirst open_ others position next) := by
  rw [matchFirst]
  cases (matchChain open_ member position).bind (Stand.andThen · next) <;> rfl

/-- Members that stand alike, each in its place, are kept alike. -/
theorem agree_matchFirst {free : Bool}
    (hm : List.Forall₂ (fun member member' => Agree false (matchChain open_ member position)
      (matchChain open_ member' position)) members members')
    (hn : ∀ stand, Agree free (next stand) (next' stand)) :
    Agree free (matchFirst open_ members position next)
      (matchFirst open_ members' position next') := by
  induction hm with
  | nil =>
      simp only [matchFirst]
      exact .refl none
  | cons hmember _ ih =>
      rw [matchFirst_cons, matchFirst_cons]
      exact (hmember.bind_andThen hn).or ih

theorem andThen_eq_some_iff {stand result : Stand} :
    Stand.andThen stand next = some result ↔
      ∃ after, next stand.1 = some after ∧ (after.1, stand.2 + after.2) = result :=
  Option.map_eq_some_iff

/-- The member that is kept, where it stands, and what follows it. -/
theorem exists_of_matchFirst_eq_some {result : Stand}
    (h : matchFirst open_ members position next = some result) :
    ∃ member ∈ members, ∃ inner after, matchChain open_ member position = some inner ∧
      next inner.1 = some after ∧ (after.1, inner.2 + after.2) = result := by
  induction members with
  | nil =>
      rw [matchFirst] at h
      cases h
  | cons member others ih =>
      rw [matchFirst_cons] at h
      rcases Option.or_eq_some_iff.mp h with hmember | ⟨-, hothers⟩
      · obtain ⟨inner, hinner, hnext⟩ := Option.bind_eq_some_iff.mp hmember
        obtain ⟨after, hafter, hresult⟩ := andThen_eq_some_iff.mp hnext
        exact ⟨member, List.mem_cons_self, inner, after, hinner, hafter, hresult⟩
      · obtain ⟨other, ho, hrest⟩ := ih hothers
        exact ⟨other, List.mem_cons_of_mem member ho, hrest⟩

theorem exists_of_standsAt_matchFirst
    (h : StandsAt (matchFirst open_ members position next) stand) :
    ∃ member ∈ members, ∃ inner, StandsAt (matchChain open_ member position) inner ∧
      StandsAt (next inner) stand := by
  obtain ⟨score, hfirst⟩ := h
  obtain ⟨member, hm, inner, after, hinner, hafter, hresult⟩ := exists_of_matchFirst_eq_some hfirst
  cases hresult
  exact ⟨member, hm, inner.1, ⟨inner.2, hinner⟩, ⟨after.2, hafter⟩⟩

theorem standsAt_matchStep_plain_iff {step : Step} (h : step.isGroup = false) :
    StandsAt (matchStep open_ last step position next) stand ↔
      ((∃ text, position.head? = some text ∧ step.Accepts text) ∧
        (step.absorbs = true ∨ last = false ∨ mayEnd open_ position = true)) ∧
        StandsAt (next position) stand := by
  rw [standsAt_matchStep_iff h, and_assoc]
  cases position with
  | nil => simp
  | cons text more => simp

theorem standsAt_matchStep_exclusion_iff :
    StandsAt (matchStep open_ last (.group true members) position next) stand ↔
      (position ≠ [] → matchesAny ((!last) :: open_) members position = false) ∧
        StandsAt (next position) stand := by
  rw [matchStep]
  cases position with
  | nil => simp
  | cons text more =>
      cases hany : matchesAny ((!last) :: open_) members (text :: more) with
      | true => simp [not_standsAt_none]
      | false => simp [standsAt_andThen_iff]

/-- Members that all come to stand at one place count only by whether some member matches. -/
theorem standsAt_matchStep_level_iff {n : Nat}
    (hm : ∀ member ∈ members, ∀ inner,
      StandsAt (matchChain ((!last) :: open_) member position) inner → inner = position.drop n) :
    StandsAt (matchStep open_ last (.group false members) position next) stand ↔
      (position ≠ [] ∧ matchesAny ((!last) :: open_) members position = true) ∧
        StandsAt (next (position.drop n)) stand := by
  have hresult : matchStep open_ last (.group false members) position next =
      if position.isEmpty then none else matchFirst ((!last) :: open_) members position next := by
    rw [matchStep]
  have hdown : ∀ {stand}, StandsAt (matchStep open_ last (.group false members) position next)
      stand → StandsAt (next (position.drop n)) stand := by
    intro stand h
    rw [hresult] at h
    split at h
    · exact absurd h not_standsAt_none
    · obtain ⟨member, hmem, inner, hinner, hnext⟩ := exists_of_standsAt_matchFirst h
      rwa [← hm member hmem inner hinner]
  have hsome := @matchStep_member_isSome_iff open_ last members position next
  rw [matchesAny_iff]
  constructor
  · intro h
    obtain ⟨hne, member, hmem, inner, hinner, -⟩ := hsome.mp (isSome_iff_standsAt.mpr ⟨stand, h⟩)
    exact ⟨⟨hne, member, hmem, inner, hinner⟩, hdown h⟩
  · intro h
    obtain ⟨⟨hne, member, hmem, inner, hinner⟩, hnext⟩ := h
    have hinner' := hm member hmem inner hinner
    have hmatch : (matchStep open_ last (.group false members) position next).isSome = true :=
      hsome.mpr ⟨hne, member, hmem, inner, hinner,
        isSome_iff_standsAt.mpr ⟨stand, hinner' ▸ hnext⟩⟩
    obtain ⟨stand', hstand'⟩ := isSome_iff_standsAt.mp hmatch
    rwa [standsAt_unique hnext (hdown hstand')]

theorem agree_matchStep {free : Bool} (step : Step)
    (hn : ∀ stand, Agree free (next stand) (next' stand)) :
    Agree free (matchStep open_ last step position next)
      (matchStep open_ last step position next') := by
  by_cases hgroup : step.isGroup = false
  · exact .of_and (fun _ => standsAt_matchStep_plain_iff hgroup)
      (fun _ => standsAt_matchStep_plain_iff hgroup) Iff.rfl (hn position)
  · obtain ⟨exclude, members, rfl⟩ := exists_eq_group hgroup
    cases exclude with
    | true =>
        exact .of_and (fun _ => standsAt_matchStep_exclusion_iff)
          (fun _ => standsAt_matchStep_exclusion_iff) Iff.rfl (hn position)
    | false =>
        rw [matchStep, matchStep]
        split
        · exact .refl none
        · exact agree_matchFirst (List.forall₂_same.mpr fun _ _ => .refl _) hn

/-! ## Chains that always end at one place -/

mutual

/-- How far behind the text it starts at a step stands, if that is the same for every match. -/
def Step.advance? : Step → Option Nat
  | .group false members => membersAdvance? members
  | .name .. | .verbatim _ | .any | .range _ | .destructor _ | .group true _ => some 0

def chainAdvance? : List Step → Option Nat
  | [] => some 0
  | step :: rest =>
      if rest.isEmpty then step.advance?
      else step.advance?.bind fun n => (chainAdvance? rest).map (n + 1 + ·)

def membersAdvance? : List (List Step) → Option Nat
  | [] => none
  | member :: others =>
      if others.isEmpty || membersAdvance? others = chainAdvance? member then chainAdvance? member
      else none

end

/-- All members of a group end at the same place, wherever they match. -/
def level (members : List Chain) : Bool := (membersAdvance? members).isSome

theorem membersAdvance?_eq_some_iff {members : List Chain} {n : Nat} :
    membersAdvance? members = some n ↔
      members ≠ [] ∧ ∀ member ∈ members, chainAdvance? member = some n := by
  induction members with
  | nil => simp [membersAdvance?]
  | cons member others ih =>
      rw [membersAdvance?]
      cases others with
      | nil => simp
      | cons other others =>
          rw [List.isEmpty_cons, Bool.false_or, Option.ite_none_right_eq_some, decide_eq_true_eq,
            List.forall_mem_cons (a := member)]
          refine ⟨?_, ?_⟩
          · intro h
            obtain ⟨hequal, hmember⟩ := h
            exact ⟨List.cons_ne_nil _ _, hmember, (ih.mp (hequal.trans hmember)).2⟩
          · intro h
            obtain ⟨-, hmember, hothers⟩ := h
            exact ⟨(ih.mpr ⟨List.cons_ne_nil _ _, hothers⟩).trans hmember.symm, hmember⟩

theorem membersAdvance?_perm {members members' : List Chain} (h : members.Perm members') :
    membersAdvance? members = membersAdvance? members' := by
  refine Option.ext fun n => ?_
  rw [membersAdvance?_eq_some_iff, membersAdvance?_eq_some_iff, Ne, Ne, ← List.isEmpty_iff,
    ← List.isEmpty_iff, h.isEmpty_eq]
  simp only [h.mem_iff]

theorem membersAdvance?_replace {before behind : List Chain} {member member' : Chain}
    (h : chainAdvance? member = chainAdvance? member') :
    membersAdvance? (before ++ member :: behind) =
      membersAdvance? (before ++ member' :: behind) := by
  refine Option.ext fun n => ?_
  simp only [membersAdvance?_eq_some_iff, List.forall_mem_append, List.forall_mem_cons, h]
  simp

theorem advance?_eq_zero {step : Step} (h : step.isGroup = false) : step.advance? = some 0 := by
  cases step with
  | group exclude members => cases h
  | _ => rfl

theorem chainAdvance?_cons_cons_eq_some_iff {step after : Step} {rest : Chain} {n : Nat} :
    chainAdvance? (step :: after :: rest) = some n ↔
      ∃ k, step.advance? = some k ∧ ∃ m, chainAdvance? (after :: rest) = some m ∧
        k + 1 + m = n := by
  rw [chainAdvance?]
  simp only [List.isEmpty_cons, Bool.false_eq_true, if_false, Option.bind_eq_some_iff,
    Option.map_eq_some_iff]

/-- A step leaves what follows it at the place where it always ends. -/
theorem standsAt_next_of_advance? {step : Step} {n : Nat} (hn : step.advance? = some n)
    (hm : ∀ member ∈ step.members, ∀ {open_ position stand k}, chainAdvance? member = some k →
      StandsAt (matchChain open_ member position) stand → stand = position.drop k)
    (h : StandsAt (matchStep open_ last step position next) stand) :
    StandsAt (next (position.drop n)) stand := by
  by_cases hgroup : step.isGroup = false
  · rw [advance?_eq_zero hgroup] at hn
    cases hn
    exact ((standsAt_matchStep_plain_iff hgroup).mp h).2
  · obtain ⟨exclude, members, rfl⟩ := exists_eq_group hgroup
    cases exclude with
    | true =>
        cases hn
        exact (standsAt_matchStep_exclusion_iff.mp h).2
    | false =>
        have hall := (membersAdvance?_eq_some_iff.mp hn).2
        exact ((standsAt_matchStep_level_iff fun member hmem _ =>
          hm member hmem (hall member hmem)).mp h).2

theorem eq_drop_of_standsAt {chain : Chain} {n : Nat} (hn : chainAdvance? chain = some n)
    (h : StandsAt (matchChain open_ chain position) stand) : stand = position.drop n := by
  induction chain using Chain.induction generalizing open_ position stand n with
  | nil =>
      cases hn
      exact standsAt_some_iff.mp h
  | @cons step rest ihMembers ihRest =>
      rw [matchChain] at h
      cases rest with
      | nil =>
          have hstep : step.advance? = some n := by
            rw [← hn, chainAdvance?, List.isEmpty_nil, if_pos rfl]
          exact standsAt_some_iff.mp (standsAt_next_of_advance? hstep ihMembers h)
      | cons after rest =>
          obtain ⟨k, hk, m, hm, rfl⟩ := chainAdvance?_cons_cons_eq_some_iff.mp hn
          have hstands := standsAt_next_of_advance? hk ihMembers h
          rw [List.isEmpty_cons, if_neg (by simp)] at hstands
          rw [ihRest hm hstands, List.tail_drop, List.drop_drop]

/-! ## Groups that count only by whether a member matches -/

theorem matchesAny_perm (h : members.Perm members') :
    matchesAny open_ members position = matchesAny open_ members' position := by
  rw [Bool.eq_iff_iff, matchesAny_iff, matchesAny_iff]
  simp only [h.mem_iff]

theorem matchesAny_replace {free : Bool} {before behind : List Chain} {member member' : Chain}
    (h : Agree free (matchChain open_ member position) (matchChain open_ member' position)) :
    matchesAny open_ (before ++ member :: behind) position =
      matchesAny open_ (before ++ member' :: behind) position := by
  rw [Bool.eq_iff_iff, matchesAny_iff, matchesAny_iff]
  simp only [List.mem_append, List.mem_cons, or_and_right, exists_or, exists_eq_left, h.1]

theorem agree_matchStep_of_matchesAny {free exclude : Bool}
    (hany : matchesAny ((!last) :: open_) members position =
      matchesAny ((!last) :: open_) members' position)
    (hl : exclude = true ∨ ∃ n, membersAdvance? members = some n ∧
      membersAdvance? members' = some n) :
    Agree free (matchStep open_ last (.group exclude members) position next)
      (matchStep open_ last (.group exclude members') position next) := by
  cases exclude with
  | true =>
      refine .of_and (fun _ => standsAt_matchStep_exclusion_iff)
        (fun _ => standsAt_matchStep_exclusion_iff) ?_ (.refl _)
      rw [hany]
  | false =>
      obtain ⟨n, hn, hn'⟩ := hl.resolve_left Bool.false_ne_true
      have hall := (membersAdvance?_eq_some_iff.mp hn).2
      have hall' := (membersAdvance?_eq_some_iff.mp hn').2
      refine .of_and
        (fun _ => standsAt_matchStep_level_iff fun member hm _ =>
          eq_drop_of_standsAt (hall member hm))
        (fun _ => standsAt_matchStep_level_iff fun member hm _ =>
          eq_drop_of_standsAt (hall' member hm)) ?_ (.refl _)
      rw [hany]

/-- Behind the last group of a chain there is nothing left to fail. -/
theorem agree_matchStep_last
    (hany : matchesAny (false :: open_) members position =
      matchesAny (false :: open_) members' position) :
    Agree true (matchStep open_ true (.group false members) position fun s => some (s, 0))
      (matchStep open_ true (.group false members') position fun s => some (s, 0)) := by
  have hsome : ∀ members, (∃ stand, StandsAt
      (matchStep open_ true (.group false members) position fun s => some (s, 0)) stand) ↔
        position ≠ [] ∧ matchesAny (false :: open_) members position = true := by
    intro members
    rw [← isSome_iff_standsAt, matchStep_member_isSome_iff, matchesAny_iff]
    simp
  refine ⟨?_, by simp⟩
  rw [hsome, hsome, hany]

/-! ## Reordering -/

/-- A chain with the members of one group, at any depth, in another order. `free` says that only
whether the chain matches counts, and not where it ends. `settled` says that the order cannot
show: only a match counts where the group stands, or the group excludes, or its members all end
at one place. -/
inductive Reordered : (free settled : Bool) → Chain → Chain → Prop where
  | members {free settled exclude : Bool} {members members' : List Chain} {rest : Chain} :
      settled = (free || exclude || level members) → members.Perm members' →
      Reordered free settled (.group exclude members :: rest) (.group exclude members' :: rest)
  | inside {free inner settled exclude : Bool} (before behind : List Chain)
      {member member' rest : Chain} :
      inner = (exclude || level (before ++ member :: behind) || (free && rest.isEmpty)) →
      Reordered inner settled member member' →
      Reordered free settled (.group exclude (before ++ member :: behind) :: rest)
        (.group exclude (before ++ member' :: behind) :: rest)
  | later {free settled : Bool} {step : Step} {rest rest' : Chain} :
      Reordered free settled rest rest' →
      Reordered free settled (step :: rest) (step :: rest')

namespace Reordered

variable {free settled : Bool} {chain chain' : Chain}

theorem isEmpty_eq (h : Reordered free settled chain chain') : chain.isEmpty = chain'.isEmpty := by
  cases h <;> rfl

theorem chainAdvance?_eq (h : Reordered free settled chain chain') :
    chainAdvance? chain = chainAdvance? chain' := by
  induction h with
  | @members _ _ exclude members members' rest _ hperm =>
      have hstep : (Step.group exclude members).advance? =
          (Step.group exclude members').advance? := by
        cases exclude with
        | true => rfl
        | false => exact membersAdvance?_perm hperm
      rw [chainAdvance?, chainAdvance?, hstep]
  | @inside _ _ _ exclude before behind member member' rest _ _ ih =>
      have hstep : (Step.group exclude (before ++ member :: behind)).advance? =
          (Step.group exclude (before ++ member' :: behind)).advance? := by
        cases exclude with
        | true => rfl
        | false => exact membersAdvance?_replace ih
      rw [chainAdvance?, chainAdvance?, hstep]
  | later h ih => rw [chainAdvance?, chainAdvance?, h.isEmpty_eq, ih]

/-- The matches of a chain and of the reordered one agree. The induction is on the way to the
group, for any open groups and any position, as the steps before it leave them. -/
theorem agree (h : Reordered free settled chain chain') (hs : settled = true) :
    ∀ open_ position, Agree free (matchChain open_ chain position)
      (matchChain open_ chain' position) := by
  induction h with
  | @members free settled exclude members members' rest hsettled hperm =>
      intro open_ position
      rw [matchChain, matchChain]
      by_cases hl : exclude = true ∨ level members = true
      · refine agree_matchStep_of_matchesAny (matchesAny_perm hperm) (hl.imp_right ?_)
        intro hlevel
        obtain ⟨n, hn⟩ := Option.isSome_iff_exists.mp hlevel
        exact ⟨n, hn, membersAdvance?_perm hperm ▸ hn⟩
      · obtain ⟨rfl, hlevel⟩ : exclude = false ∧ level members = false := by simpa using hl
        obtain rfl : free = true := by simpa [hlevel, hs] using hsettled
        refine ⟨?_, by simp⟩
        rw [← isSome_iff_standsAt, ← isSome_iff_standsAt, matchStep_member_isSome_iff,
          matchStep_member_isSome_iff]
        simp only [hperm.mem_iff]
  | @inside free inner _ exclude before behind member member' rest hinner hmember ih =>
      intro open_ position
      rw [matchChain, matchChain]
      have hany : matchesAny ((!rest.isEmpty) :: open_) (before ++ member :: behind) position =
          matchesAny ((!rest.isEmpty) :: open_) (before ++ member' :: behind) position :=
        matchesAny_replace (ih hs _ position)
      by_cases hl : exclude = true ∨ level (before ++ member :: behind) = true
      · refine agree_matchStep_of_matchesAny hany (hl.imp_right ?_)
        intro hlevel
        obtain ⟨n, hn⟩ := Option.isSome_iff_exists.mp hlevel
        exact ⟨n, hn, membersAdvance?_replace hmember.chainAdvance?_eq ▸ hn⟩
      · obtain ⟨rfl, hlevel⟩ : exclude = false ∧ level (before ++ member :: behind) = false := by
          simpa using hl
        rw [hlevel, Bool.false_or, Bool.false_or] at hinner
        cases hlast : free && rest.isEmpty with
        | true =>
            obtain ⟨rfl, hempty⟩ := Bool.and_eq_true_iff.mp hlast
            obtain rfl := List.isEmpty_iff.mp hempty
            exact agree_matchStep_last hany
        | false =>
            obtain rfl := hinner.trans hlast
            rw [matchStep, matchStep]
            split
            · exact .refl none
            · refine agree_matchFirst ?_ fun _ => .refl _
              exact List.rel_append (List.forall₂_same.mpr fun _ _ => .refl _)
                (.cons (ih hs _ position) (List.forall₂_same.mpr fun _ _ => .refl _))
  | later h ih =>
      intro open_ position
      rw [matchChain, matchChain, h.isEmpty_eq]
      refine agree_matchStep _ fun stand => ?_
      split
      · exact .refl _
      · exact ih hs open_ stand.tail

end Reordered

theorem Chain.matchRecord_of_ne_nil (chain : Chain) {candidate : List Segment}
    (hc : candidate ≠ []) :
    chain.matchRecord candidate =
      match matchChain [] chain (candidate.map Segment.render) with
      | some stand => ⟨true, stand.2⟩
      | none => .unmatched :=
  if_neg (by simpa using hc)

theorem matchRecord_matched_eq_isSome {chain : Chain} {candidate : List Segment}
    (hc : candidate ≠ []) : (chain.matchRecord candidate).matched =
      (matchChain [] chain (candidate.map Segment.render)).isSome := by
  rw [Chain.matchRecord_of_ne_nil chain hc]
  cases matchChain [] chain (candidate.map Segment.render) with
  | none => rfl
  | some stand => rfl

/-- Whether a pattern matches is the same for every order of the members of a group, unless
the group stands inside a member of a group that goes on, and can end at several places. -/
theorem matched_eq_of_reordered {chain chain' : Chain} (h : Reordered true true chain chain')
    (candidate : List Segment) :
    (chain.matchRecord candidate).matched = (chain'.matchRecord candidate).matched := by
  cases candidate with
  | nil => rfl
  | cons segment more =>
      rw [matchRecord_matched_eq_isSome (List.cons_ne_nil segment more),
        matchRecord_matched_eq_isSome (List.cons_ne_nil segment more)]
      exact (h.agree rfl [] _).isSome_eq

/-- The inner group may end behind one text or behind two, but nothing follows the outer one. -/
theorem matched_eq_in_last_group :
    let chain : Chain := [.group false [[.name "x" false false,
      .group false [[.name "a" false false], [.name "a" false false, .name "b" false false]]]]]
    let chain' : Chain := [.group false [[.name "x" false false,
      .group false [[.name "a" false false, .name "b" false false], [.name "a" false false]]]]]
    let candidate : List Segment := [.key (.name "x"), .key (.name "a"), .key (.name "b")]
    Reordered true true chain chain' ∧ (chain.matchRecord candidate).matched = true ∧
      (chain.matchRecord candidate).matched = (chain'.matchRecord candidate).matched := by
  intro chain chain' candidate
  have h : Reordered true true chain chain' :=
    .inside [] [] rfl (.later (.members rfl (.swap _ _ [])))
  exact ⟨h, by decide, matched_eq_of_reordered h candidate⟩

/-- A nested group keeps to its first member, for behind it the wildcard goes on, and is not
asked again when what follows the outer group fails. -/
theorem matched_ne_inside_group_that_goes_on :
    let chain : Chain := [.group false [[.group false [[.name "a" false false],
      [.name "a" false false, .name "b" false false]], .any]], .name "k" false false]
    let chain' : Chain := [.group false [[.group false [[.name "a" false false,
      .name "b" false false], [.name "a" false false]], .any]], .name "k" false false]
    let candidate : List Segment :=
      [.key (.name "a"), .key (.name "b"), .key (.name "x"), .key (.name "k")]
    Chain.parse "*(*(a,a.b).*).k" = .ok chain ∧ Chain.parse "*(*(a.b,a).*).k" = .ok chain' ∧
      Reordered true false chain chain' ∧ (chain.matchRecord candidate).matched = false ∧
      (chain'.matchRecord candidate).matched = true := by
  intro chain chain' candidate
  have hreordered : Reordered true false chain chain' :=
    .inside [] [] rfl (.members rfl (.swap _ _ []))
  exact ⟨by decide +kernel, by decide +kernel, hreordered, by decide, by decide⟩

end DocPath
