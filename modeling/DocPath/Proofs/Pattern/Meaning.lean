import DocPath.Pattern.Matching
import DocPath.Proofs.Pattern.RoundTrip

/-! # What chains match

The relation between chains and positions of a candidate that the search decides, for chains
in which no group stands inside another. -/

namespace DocPath

/-! ## Single steps -/

/-- The test of a step on a text. Groups have none of their own. -/
def Step.Accepts (text : String) : Step → Prop
  | .name own _ false => text = own
  | .name own _ true => own.toList <+: text.toList
  | .verbatim body => stripBlanks text = body
  | .destructor d => stripBlanks text = d.source
  | .any => True
  | .range bounds =>
      ∃ n, Numeral.signedWord? text.toList = some n ∧
        (∀ low, bounds.low = some low → low ≤ n) ∧ ∀ high, bounds.high = some high → n ≤ high
  | .group .. => False

/-- Steps that may end a chain before the candidate ends. -/
def Step.absorbs : Step → Bool
  | .any | .range _ => true
  | .name .. | .verbatim _ | .destructor _ | .group .. => false

def Step.isGroup : Step → Bool
  | .group .. => true
  | .name .. | .verbatim _ | .any | .range _ | .destructor _ => false

/-- The members of a group. -/
def Step.members : Step → List Chain
  | .group _ members => members
  | .name .. | .verbatim _ | .any | .range _ | .destructor _ => []

/-- No group stands inside another. -/
def Chain.Flat (chain : Chain) : Prop :=
  ∀ step ∈ chain, ∀ member ∈ step.members, ∀ inner ∈ member, inner.isGroup = false

instance (chain : Chain) : Decidable chain.Flat :=
  inferInstanceAs (Decidable (∀ step ∈ chain, ∀ member ∈ step.members, ∀ inner ∈ member,
    inner.isGroup = false))

/-! ## Chains -/

/-- The steps of a member accept the texts from `i` on one by one, and its end is the end of the
candidate unless the group goes on or the last step absorbs what is left. -/
def Fits (candidate : List String) (goesOn : Bool) (member : Chain) (i : Nat) : Prop :=
  (∀ j step, member[j]? = some step → ∃ text, candidate[i + j]? = some text ∧ step.Accepts text) ∧
    (goesOn = true ∨ i + member.length = candidate.length ∨
      ∃ step, member.getLast? = some step ∧ step.absorbs = true)

/-- A chain holds at a position of the candidate. Only an exclusion holds past its end. -/
inductive Holds (candidate : List String) : Chain → Nat → Prop where
  | nil {i : Nat} : Holds candidate [] i
  | literal {step : Step} {rest : Chain} {i : Nat} {text : String} : step.isWildcard = false →
      candidate[i]? = some text → step.Accepts text → (rest = [] → i + 1 = candidate.length) →
      Holds candidate rest (i + 1) → Holds candidate (step :: rest) i
  | wildcard {step : Step} {rest : Chain} {i : Nat} {text : String} : step.absorbs = true →
      candidate[i]? = some text → step.Accepts text → Holds candidate rest (i + 1) →
      Holds candidate (step :: rest) i
  | member {members : List Chain} {rest member : Chain} {i : Nat} : i < candidate.length →
      member ∈ members → Fits candidate (!rest.isEmpty) member i →
      Holds candidate rest (i + member.length) → Holds candidate (.group false members :: rest) i
  | exclusion {members : List Chain} {rest : Chain} {i : Nat} :
      (i < candidate.length → ∀ member ∈ members, ¬ Fits candidate (!rest.isEmpty) member i) →
      Holds candidate rest (i + 1) → Holds candidate (.group true members :: rest) i

/-! ## Where a match stands -/

/-- A match came to stand at a position, with whatever score. -/
def StandsAt (result : Option Stand) (position : List String) : Prop :=
  ∃ score, result = some (position, score)

theorem isSome_iff_standsAt {result : Option Stand} :
    result.isSome = true ↔ ∃ position, StandsAt result position := by
  rw [Option.isSome_iff_exists]
  constructor
  · intro hsome
    obtain ⟨⟨position, score⟩, h⟩ := hsome
    exact ⟨position, score, h⟩
  · intro hstand
    obtain ⟨position, score, h⟩ := hstand
    exact ⟨_, h⟩

theorem not_standsAt_none {position : List String} : ¬ StandsAt none position := by
  intro hstand
  obtain ⟨score, h⟩ := hstand
  cases h

theorem standsAt_some_iff {position position' : List String} {score : Nat} :
    StandsAt (some (position, score)) position' ↔ position' = position := by
  constructor
  · intro hstand
    obtain ⟨score', h⟩ := hstand
    cases h
    rfl
  · intro heq
    subst heq
    exact ⟨score, rfl⟩

theorem standsAt_andThen_iff {stand : Stand} {next : List String → Option Stand}
    {position : List String} :
    StandsAt (Stand.andThen stand next) position ↔ StandsAt (next stand.1) position := by
  simp only [Stand.andThen, StandsAt]
  cases next stand.1 with
  | none => simp
  | some after => simp [Prod.ext_iff]

/-! ## Steps without members -/

theorem wildcardScore?_isSome_iff (step : Step) (text : String) :
    (step.wildcardScore? text).isSome = true ↔ step.absorbs = true ∧ step.Accepts text := by
  cases step with
  | range bounds =>
      simp only [Step.wildcardScore?, Step.absorbs, Step.Accepts, Bounds.contains]
      cases Numeral.signedWord? text.toList with
      | none => simp
      | some n =>
          obtain ⟨low, high⟩ := bounds
          cases low <;> cases high <;> simp
  | _ => simp [Step.wildcardScore?, Step.absorbs, Step.Accepts]

theorem literalScore?_isSome_iff (step : Step) (text : String) :
    (step.literalScore? text).isSome = true ↔
      step.isWildcard = false ∧ step.Accepts text := by
  cases step with
  | name own bracketed expand =>
      cases expand with
      | false =>
          simp only [Step.literalScore?, Step.isWildcard, Step.Accepts]
          split <;> simp_all
      | true =>
          simp only [Step.literalScore?, Step.isWildcard, Step.Accepts,
            ← List.isPrefixOf_iff_prefix]
          split <;> simp_all
  | verbatim body =>
      simp only [Step.literalScore?, Step.isWildcard, Step.Accepts]
      split <;> simp_all
  | destructor d =>
      simp only [Step.literalScore?, Step.isWildcard, Step.Accepts]
      split <;> simp_all
  | _ => simp [Step.literalScore?, Step.isWildcard]

theorem isWildcard_eq_absorbs {step : Step} (h : step.isGroup = false) :
    step.isWildcard = step.absorbs := by
  cases step <;> first | rfl | cases h

theorem exists_eq_group {step : Step} (h : step.isGroup ≠ false) :
    ∃ exclude members, step = .group exclude members := by
  cases step with
  | group exclude members => exact ⟨exclude, members, rfl⟩
  | _ => exact absurd rfl h

theorem matchStep_nil {open_ : List Bool} {last : Bool} {step : Step}
    (h : step.isGroup = false) (next : List String → Option Stand) :
    matchStep open_ last step [] next = none := by
  cases step with
  | group exclude members => cases h
  | _ => rw [matchStep] <;> simp

theorem matchStep_cons {open_ : List Bool} {last : Bool} {step : Step}
    (h : step.isGroup = false) (text : String) (more : List String)
    (next : List String → Option Stand) :
    matchStep open_ last step (text :: more) next =
      match step.wildcardScore? text with
      | some score => Stand.andThen (text :: more, score) next
      | none =>
        match step.literalScore? text with
        | some score =>
            if !last || mayEnd open_ (text :: more) then Stand.andThen (text :: more, score) next
            else none
        | none => none := by
  cases step with
  | group exclude members => cases h
  | _ => rw [matchStep] <;> first | rfl | simp

/-- A step without members stands where it is tried, if it accepts the text there and may be
followed by what follows it. -/
theorem standsAt_matchStep_iff {open_ : List Bool} {last : Bool} {step : Step}
    (h : step.isGroup = false) {position stand : List String}
    {next : List String → Option Stand} :
    StandsAt (matchStep open_ last step position next) stand ↔
      ∃ text more, position = text :: more ∧ step.Accepts text ∧
        (step.absorbs = true ∨ last = false ∨ mayEnd open_ position = true) ∧
        StandsAt (next position) stand := by
  cases position with
  | nil => simp [matchStep_nil h, not_standsAt_none]
  | cons text more =>
      have hw := wildcardScore?_isSome_iff step text
      have hl := literalScore?_isSome_iff step text
      rw [isWildcard_eq_absorbs h] at hl
      rw [matchStep_cons h]
      by_cases haccepts : step.Accepts text
      · cases habsorbs : step.absorbs with
        | true =>
            obtain ⟨score, hs⟩ := Option.isSome_iff_exists.mp (hw.mpr ⟨habsorbs, haccepts⟩)
            simp [hs, standsAt_andThen_iff, haccepts]
        | false =>
            have hs : step.wildcardScore? text = none := by simpa [habsorbs] using hw
            obtain ⟨score, hs'⟩ := Option.isSome_iff_exists.mp (hl.mpr ⟨habsorbs, haccepts⟩)
            rw [hs, hs']
            by_cases hend : last = false ∨ mayEnd open_ (text :: more) = true
            · simp [hend, standsAt_andThen_iff, haccepts]
            · simp [hend, not_standsAt_none]
      · have hs : step.wildcardScore? text = none := by simpa [haccepts] using hw
        have hs' : step.literalScore? text = none := by simpa [haccepts] using hl
        simp [hs, hs', haccepts, not_standsAt_none]

/-! ## Members -/

theorem matchesAny_iff {open_ : List Bool} {members : List Chain} {position : List String} :
    matchesAny open_ members position = true ↔
      ∃ member ∈ members, ∃ stand, StandsAt (matchChain open_ member position) stand := by
  induction members with
  | nil => simp [matchesAny]
  | cons member others ih =>
      rw [matchesAny, Bool.or_eq_true, ih, isSome_iff_standsAt]
      simp

theorem isSome_bind_andThen_iff (result : Option Stand) (next : List String → Option Stand) :
    (result.bind (Stand.andThen · next)).isSome = true ↔
      ∃ stand, StandsAt result stand ∧ (next stand).isSome = true := by
  cases result with
  | none => simp [StandsAt]
  | some stand =>
      obtain ⟨position, score⟩ := stand
      simp [standsAt_some_iff, Stand.andThen]

/-- The search goes on to the next member until one matches so that what follows does too. -/
theorem matchFirst_isSome_iff {open_ : List Bool} {members : List Chain}
    {position : List String} {next : List String → Option Stand} :
    (matchFirst open_ members position next).isSome = true ↔
      ∃ member ∈ members, ∃ stand,
        StandsAt (matchChain open_ member position) stand ∧ (next stand).isSome = true := by
  induction members with
  | nil => simp [matchFirst]
  | cons member others ih =>
      have hbind := isSome_bind_andThen_iff (matchChain open_ member position) next
      rw [matchFirst]
      split
      · rename_i stand hs
        rw [hs] at hbind
        simp [hbind.mp rfl]
      · rename_i hs
        rw [hs] at hbind
        rw [ih]
        simp [← hbind]

/-! ## Positions -/

variable {candidate : List String}

theorem drop_eq_cons_iff {i : Nat} {text : String} {more : List String} :
    candidate.drop i = text :: more ↔
      candidate[i]? = some text ∧ more = candidate.drop (i + 1) := by
  constructor
  · intro h
    refine ⟨?_, ?_⟩
    · rw [← List.head?_drop, h]
      rfl
    · rw [← List.tail_drop, h]
      rfl
  · intro htext
    obtain ⟨h, rfl⟩ := htext
    obtain ⟨hi, rfl⟩ := List.getElem?_eq_some_iff.mp h
    exact List.drop_eq_getElem_cons hi

theorem mayEnd_nil_drop_iff {i : Nat} (h : i < candidate.length) :
    mayEnd [] (candidate.drop i) = true ↔ i + 1 = candidate.length := by
  simp only [mayEnd, List.length_drop, List.isEmpty_nil, Bool.not_true, Bool.false_and,
    Bool.or_false, decide_eq_true_eq]
  omega

theorem mayEnd_singleton_drop_iff {goesOn : Bool} {i : Nat} (h : i < candidate.length) :
    mayEnd [goesOn] (candidate.drop i) = true ↔ goesOn = true ∨ i + 1 = candidate.length := by
  simp only [mayEnd, List.length_drop, List.isEmpty_cons, Bool.not_false, Bool.true_and,
    List.all_cons, List.all_nil, Bool.and_true, id, Bool.or_eq_true, decide_eq_true_eq]
  rw [or_comm]
  exact or_congr Iff.rfl (by omega)

theorem standsAt_matchStep_drop_iff {open_ : List Bool} {last : Bool} {step : Step}
    (h : step.isGroup = false) {i : Nat} {stand : List String}
    {next : List String → Option Stand} :
    StandsAt (matchStep open_ last step (candidate.drop i) next) stand ↔
      (∃ text, candidate[i]? = some text ∧ step.Accepts text) ∧
        (step.absorbs = true ∨ last = false ∨ mayEnd open_ (candidate.drop i) = true) ∧
        StandsAt (next (candidate.drop i)) stand := by
  rw [standsAt_matchStep_iff h]
  constructor
  · intro hstep
    obtain ⟨text, more, hdrop, haccepts, hend, hstand⟩ := hstep
    exact ⟨⟨text, (drop_eq_cons_iff.mp hdrop).1, haccepts⟩, hend, hstand⟩
  · intro hstep
    obtain ⟨⟨text, hi, haccepts⟩, hend, hstand⟩ := hstep
    exact ⟨text, _, drop_eq_cons_iff.mpr ⟨hi, rfl⟩, haccepts, hend, hstand⟩

theorem fits_singleton_iff {goesOn : Bool} {step : Step} {i : Nat} :
    Fits candidate goesOn [step] i ↔
      (∃ text, candidate[i]? = some text ∧ step.Accepts text) ∧
        (goesOn = true ∨ i + 1 = candidate.length ∨ step.absorbs = true) := by
  simp only [Fits, List.getLast?_singleton, Option.some.injEq, exists_eq_left',
    List.length_singleton]
  refine and_congr ⟨?_, ?_⟩ Iff.rfl
  · intro h
    exact h 0 step rfl
  · intro h j step' hj
    cases j with
    | zero =>
        cases hj
        exact h
    | succ j => cases hj

theorem fits_cons_cons_iff {goesOn : Bool} {step after : Step} {rest : Chain} {i : Nat} :
    Fits candidate goesOn (step :: after :: rest) i ↔
      (∃ text, candidate[i]? = some text ∧ step.Accepts text) ∧
        Fits candidate goesOn (after :: rest) (i + 1) := by
  have hlength : i + (step :: after :: rest).length = i + 1 + (after :: rest).length := by
    simp only [List.length_cons]
    omega
  rw [Fits, Fits, hlength, List.getLast?_cons_cons, ← and_assoc]
  refine and_congr ⟨?_, ?_⟩ Iff.rfl
  · intro h
    refine ⟨h 0 step rfl, ?_⟩
    intro j step' hj
    have hj' := h (j + 1) step' hj
    rwa [show i + (j + 1) = i + 1 + j by omega] at hj'
  · intro haccepts j step' hj
    obtain ⟨hstep, hrest⟩ := haccepts
    cases j with
    | zero =>
        cases hj
        exact hstep
    | succ j =>
        rw [show i + (j + 1) = i + 1 + j by omega]
        exact hrest j step' hj

/-! ## Rules read backwards -/

theorem holds_cons_iff {step : Step} (h : step.isGroup = false) {rest : Chain} {i : Nat} :
    Holds candidate (step :: rest) i ↔
      (∃ text, candidate[i]? = some text ∧ step.Accepts text) ∧
        (step.absorbs = true ∨ (rest = [] → i + 1 = candidate.length)) ∧
        Holds candidate rest (i + 1) := by
  constructor
  · intro hholds
    cases hholds with
    | literal _ hi haccepts hend hrest => exact ⟨⟨_, hi, haccepts⟩, Or.inr hend, hrest⟩
    | wildcard habsorbs hi haccepts hrest => exact ⟨⟨_, hi, haccepts⟩, Or.inl habsorbs, hrest⟩
    | member => cases h
    | exclusion => cases h
  · intro hholds
    obtain ⟨⟨text, hi, haccepts⟩, hend, hrest⟩ := hholds
    by_cases habsorbs : step.absorbs = true
    · exact .wildcard habsorbs hi haccepts hrest
    · have hliteral : step.isWildcard = false := by
        rw [isWildcard_eq_absorbs h]
        exact Bool.not_eq_true _ ▸ habsorbs
      exact .literal hliteral hi haccepts (hend.resolve_left habsorbs) hrest

theorem holds_member_iff {members : List Chain} {rest : Chain} {i : Nat} :
    Holds candidate (.group false members :: rest) i ↔
      i < candidate.length ∧ ∃ member ∈ members, Fits candidate (!rest.isEmpty) member i ∧
        Holds candidate rest (i + member.length) := by
  constructor
  · intro hholds
    cases hholds with
    | literal hliteral => cases hliteral
    | wildcard habsorbs => cases habsorbs
    | member hi hm hfits hrest => exact ⟨hi, _, hm, hfits, hrest⟩
  · intro hholds
    obtain ⟨hi, member, hm, hfits, hrest⟩ := hholds
    exact .member hi hm hfits hrest

theorem holds_exclusion_iff {members : List Chain} {rest : Chain} {i : Nat} :
    Holds candidate (.group true members :: rest) i ↔
      (i < candidate.length → ∀ member ∈ members, ¬ Fits candidate (!rest.isEmpty) member i) ∧
        Holds candidate rest (i + 1) := by
  constructor
  · intro hholds
    cases hholds with
    | literal hliteral => cases hliteral
    | wildcard habsorbs => cases habsorbs
    | exclusion hnone hrest => exact ⟨hnone, hrest⟩
  · intro hholds
    obtain ⟨hnone, hrest⟩ := hholds
    exact .exclusion hnone hrest

/-! ## The search decides the relation -/

/-- A member in its group matches where it fits, and then stands at the last text it takes. -/
theorem standsAt_matchChain_member_iff {goesOn : Bool} {member : Chain} (hne : member ≠ [])
    (hm : ∀ step ∈ member, step.isGroup = false) {i : Nat} {stand : List String} :
    StandsAt (matchChain [goesOn] member (candidate.drop i)) stand ↔
      Fits candidate goesOn member i ∧ stand = candidate.drop (i + member.length - 1) := by
  induction member generalizing i with
  | nil => exact absurd rfl hne
  | cons step rest ih =>
      have hstep := hm step List.mem_cons_self
      rw [matchChain, standsAt_matchStep_drop_iff hstep]
      cases rest with
      | nil =>
          rw [fits_singleton_iff, and_assoc]
          refine and_congr_right ?_
          intro htext
          obtain ⟨text, hi, -⟩ := htext
          rw [mayEnd_singleton_drop_iff (List.getElem?_eq_some_iff.mp hi).1]
          refine and_congr ?_ standsAt_some_iff
          rw [or_comm]
          simp [or_assoc]
      | cons after rest =>
          have hrest : ∀ inner ∈ after :: rest, inner.isGroup = false :=
            fun inner hi => hm inner (List.mem_cons_of_mem step hi)
          have hlength : i + 1 + (after :: rest).length - 1 =
              i + (step :: after :: rest).length - 1 := by
            simp only [List.length_cons]
            omega
          rw [fits_cons_cons_iff, and_assoc, ← hlength, ← ih (List.cons_ne_nil after rest) hrest]
          simp

theorem matchStep_exclusion_isSome_iff {open_ : List Bool} {last : Bool}
    {members : List Chain} {position : List String} {next : List String → Option Stand} :
    (matchStep open_ last (.group true members) position next).isSome = true ↔
      (position ≠ [] → ∀ member ∈ members, ∀ stand,
        ¬ StandsAt (matchChain ((!last) :: open_) member position) stand) ∧
      (next position).isSome = true := by
  rw [matchStep]
  cases position with
  | nil => simp
  | cons text more =>
      rw [List.isEmpty_cons, if_neg (by simp)]
      by_cases hany : matchesAny ((!last) :: open_) members (text :: more) = true
      · rw [if_pos hany]
        obtain ⟨member, hm, stand, hstand⟩ := matchesAny_iff.mp hany
        refine iff_of_false (by simp) ?_
        intro hboth
        obtain ⟨hnone, -⟩ := hboth
        exact hnone (List.cons_ne_nil text more) member hm stand hstand
      · rw [if_neg hany, isSome_iff_standsAt, isSome_iff_standsAt]
        simp only [standsAt_andThen_iff]
        refine (and_iff_right ?_).symm
        intro _ member hm stand hstand
        exact hany (matchesAny_iff.mpr ⟨member, hm, stand, hstand⟩)

theorem matchStep_member_isSome_iff {open_ : List Bool} {last : Bool} {members : List Chain}
    {position : List String} {next : List String → Option Stand} :
    (matchStep open_ last (.group false members) position next).isSome = true ↔
      position ≠ [] ∧ ∃ member ∈ members, ∃ stand,
        StandsAt (matchChain ((!last) :: open_) member position) stand ∧
          (next stand).isSome = true := by
  rw [matchStep, ← matchFirst_isSome_iff]
  cases position with
  | nil => simp
  | cons text more => simp

theorem drop_ne_nil_iff {i : Nat} : candidate.drop i ≠ [] ↔ i < candidate.length := by
  rw [Ne, List.drop_eq_nil_iff, Nat.not_le]

theorem matchStep_exclusion_drop_iff {last : Bool} {members : List Chain}
    (hne : ∀ member ∈ members, member ≠ [])
    (hm : ∀ member ∈ members, ∀ inner ∈ member, inner.isGroup = false) {i : Nat}
    {next : List String → Option Stand} :
    (matchStep [] last (.group true members) (candidate.drop i) next).isSome = true ↔
      (i < candidate.length → ∀ member ∈ members, ¬ Fits candidate (!last) member i) ∧
      (next (candidate.drop i)).isSome = true := by
  rw [matchStep_exclusion_isSome_iff, drop_ne_nil_iff]
  refine and_congr_left' (forall_congr' fun _ => forall₂_congr ?_)
  intro member hmem
  have hmember : ∀ stand, StandsAt (matchChain [!last] member (candidate.drop i)) stand ↔
      Fits candidate (!last) member i ∧ stand = candidate.drop (i + member.length - 1) :=
    fun _ => standsAt_matchChain_member_iff (hne member hmem) (hm member hmem)
  rw [← not_exists]
  refine not_congr ⟨?_, ?_⟩
  · intro hmatch
    obtain ⟨stand, hstand⟩ := hmatch
    exact ((hmember stand).mp hstand).1
  · intro hfits
    exact ⟨_, (hmember _).mpr ⟨hfits, rfl⟩⟩

theorem matchStep_member_drop_iff {last : Bool} {members : List Chain}
    (hne : ∀ member ∈ members, member ≠ [])
    (hm : ∀ member ∈ members, ∀ inner ∈ member, inner.isGroup = false) {i : Nat}
    {next : List String → Option Stand} :
    (matchStep [] last (.group false members) (candidate.drop i) next).isSome = true ↔
      i < candidate.length ∧ ∃ member ∈ members, Fits candidate (!last) member i ∧
        (next (candidate.drop (i + member.length - 1))).isSome = true := by
  rw [matchStep_member_isSome_iff, drop_ne_nil_iff]
  refine and_congr_right' (exists_congr ?_)
  intro member
  refine and_congr_right ?_
  intro hmem
  have hmember : ∀ stand, StandsAt (matchChain [!last] member (candidate.drop i)) stand ↔
      Fits candidate (!last) member i ∧ stand = candidate.drop (i + member.length - 1) :=
    fun _ => standsAt_matchChain_member_iff (hne member hmem) (hm member hmem)
  constructor
  · intro hmatch
    obtain ⟨stand, hstand, hnext⟩ := hmatch
    obtain ⟨hfits, rfl⟩ := (hmember stand).mp hstand
    exact ⟨hfits, hnext⟩
  · intro hfits
    exact ⟨_, (hmember _).mpr ⟨hfits.1, rfl⟩, hfits.2⟩

theorem matchStep_drop_iff {last : Bool} {step : Step} (h : step.isGroup = false) {i : Nat}
    {next : List String → Option Stand} :
    (matchStep [] last step (candidate.drop i) next).isSome = true ↔
      (∃ text, candidate[i]? = some text ∧ step.Accepts text) ∧
        (step.absorbs = true ∨ last = false ∨ i + 1 = candidate.length) ∧
        (next (candidate.drop i)).isSome = true := by
  rw [isSome_iff_standsAt, isSome_iff_standsAt]
  simp only [standsAt_matchStep_drop_iff h, exists_and_left]
  refine and_congr_right ?_
  intro htext
  obtain ⟨text, hi, -⟩ := htext
  rw [mayEnd_nil_drop_iff (List.getElem?_eq_some_iff.mp hi).1]

/-- The search from a position succeeds if and only if the chain holds there. The induction is
on the chain, with the candidate as it stands behind each step. -/
theorem isSome_matchChain_iff {chain : Chain} (hf : chain.Flat)
    (hne : ∀ step ∈ chain, ∀ member ∈ step.members, member ≠ []) {i : Nat} :
    (matchChain [] chain (candidate.drop i)).isSome = true ↔ Holds candidate chain i := by
  induction chain generalizing i with
  | nil => exact iff_of_true (by simp [matchChain]) .nil
  | cons step rest ih =>
      have hflat := hf step List.mem_cons_self
      have hmembers := hne step List.mem_cons_self
      have hafter : ∀ j, (if rest.isEmpty then some (candidate.drop j, 0)
          else matchChain [] rest (candidate.drop j).tail).isSome = true ↔
            Holds candidate rest (j + 1) := by
        intro j
        rw [List.tail_drop, ← ih (fun s hs => hf s (List.mem_cons_of_mem step hs))
          (fun s hs => hne s (List.mem_cons_of_mem step hs))]
        cases rest with
        | nil => simp [matchChain]
        | cons after rest => simp
      rw [matchChain]
      by_cases hgroup : step.isGroup = false
      · rw [matchStep_drop_iff hgroup, holds_cons_iff hgroup, hafter]
        cases rest <;> simp
      · obtain ⟨exclude, members, rfl⟩ := exists_eq_group hgroup
        rw [Step.members] at hflat hmembers
        cases exclude with
        | true =>
            rw [matchStep_exclusion_drop_iff hmembers hflat, holds_exclusion_iff, hafter]
        | false =>
            rw [matchStep_member_drop_iff hmembers hflat, holds_member_iff]
            refine and_congr_right' (exists_congr fun member => and_congr_right fun hmem => ?_)
            have hpos : 0 < member.length := List.length_pos_iff.mpr (hmembers member hmem)
            have hlast : i + member.length - 1 + 1 = i + member.length := by omega
            rw [hafter, hlast]

/-! ## Patterns read from texts -/

/-- The members of the groups in a well-formed chain are well-formed too. -/
theorem Chain.WellFormed.of_mem_members {chain : Chain} (h : chain.WellFormed) :
    ∀ step ∈ chain, ∀ member ∈ step.members, Chain.WellFormed member := by
  intro step hs member hm
  cases step with
  | group exclude members => exact (h.of_mem _ hs).2 member hm
  | _ => cases hm

theorem Chain.WellFormed.members_ne_nil {chain : Chain} (h : chain.WellFormed) :
    ∀ step ∈ chain, ∀ member ∈ step.members, member ≠ [] :=
  fun step hs member hm => (h.of_mem_members step hs member hm).ne_nil

/-- A pattern in which no group stands inside another matches a candidate if and only if it
holds at its start. -/
theorem matchRecord_matched_iff_holds {text : String} {chain : Chain}
    (hp : Chain.parse text = .ok chain) (hf : chain.Flat) {candidate : List Segment}
    (hc : candidate ≠ []) :
    (chain.matchRecord candidate).matched = true ↔
      Holds (candidate.map Segment.render) chain 0 := by
  have hne : ∀ step ∈ chain, ∀ member ∈ step.members, member ≠ [] := by
    cases chain with
    | nil => simp
    | cons step rest =>
        exact (Chain.wellFormed_of_parse hp (List.cons_ne_nil step rest)).members_ne_nil
  rw [← isSome_matchChain_iff hf hne, List.drop_zero, Chain.matchRecord,
    if_neg (by simpa using hc)]
  cases matchChain [] chain (candidate.map Segment.render) with
  | none => simp [MatchRecord.unmatched]
  | some stand => simp

/-- What follows the group fails behind its first member that fits and holds behind the
second. -/
theorem matchRecord_matched_behind_second_member :
    let chain : Chain := [.group false [[.name "b" false false],
      [.name "b" false false, .name "c" false false]], .name "d" false true]
    let candidate : List Segment := [.key (.name "b"), .key (.name "c"), .key (.name "dd")]
    Chain.parse "*(b,b.c).d~" = .ok chain ∧ chain.Flat ∧ candidate ≠ [] ∧
      (chain.matchRecord candidate).matched = true := by
  intro chain candidate
  have hname : ∀ {text} {after : Chain}, text ≠ "" → (after ≠ [] → after.WellFormed) →
      Chain.WellFormed (.name text false false :: after) :=
    fun ht ha => Pattern.wellFormed_nameSteps ht (List.forall_mem_nil _) ha false
  have hb : Chain.WellFormed [.name "b" false false] := hname (by decide) (absurd rfl)
  have hbc : Chain.WellFormed [.name "b" false false, .name "c" false false] :=
    hname (by decide) (fun _ => hname (by decide) (absurd rfl))
  have hd : Chain.WellFormed [.name "d" false true] := .expandedName (by decide) (absurd rfl)
  have hchain : chain.WellFormed := by
    refine .group (List.cons_ne_nil _ _) ?_ (fun _ => hd)
    intro member hm
    rcases List.mem_cons.mp hm with rfl | hm
    · exact hb
    · rw [List.mem_singleton.mp hm]
      exact hbc
  have hprint : chain.print = "*(b,b.c).d~" := by decide
  have hp : Chain.parse "*(b,b.c).d~" = .ok chain := hprint ▸ Chain.parse_print hchain
  have hf : chain.Flat := by decide
  have hc : candidate ≠ [] := List.cons_ne_nil _ _
  refine ⟨hp, hf, hc, (matchRecord_matched_iff_holds hp hf hc).mpr ?_⟩
  refine .member (by decide) (List.mem_cons_of_mem _ List.mem_cons_self) ⟨?_, Or.inl rfl⟩ ?_
  · intro j step hj
    rcases j with _ | _ | j
    · cases hj
      exact ⟨"b", rfl, rfl⟩
    · cases hj
      exact ⟨"c", rfl, rfl⟩
    · cases hj
  · exact .literal rfl (rfl : _ = some "dd") (List.isPrefixOf_iff_prefix.mp rfl) (fun _ => rfl) .nil

end DocPath
