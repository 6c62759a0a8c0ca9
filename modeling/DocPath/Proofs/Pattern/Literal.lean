import DocPath.Proofs.Pattern.Score
import DocPath.Proofs.Pattern.Source
import DocPath.Proofs.Text.Numeral
import Mathlib.Algebra.BigOperators.Group.Finset.Piecewise
import Mathlib.Algebra.Group.Action.Defs
import Mathlib.Tactic.Ring

/-! # Literal chains against their segments

A literal chain, with wildcards in any of its places, matches the segments that it stands for,
unless one of the names left in it is a numeral with zeros in front. -/

namespace DocPath

/-! ## Numerals -/

theorem Key.render_ofName_eq_iff {text : String} :
    (Key.ofName text).render = text ↔ ¬ Numeral.Padded text.toList := by
  cases hword : Numeral.word? text.toList with
  | none =>
      refine iff_of_true ?_ fun hpadded => ?_
      · rw [Key.ofName, hword]
        rfl
      · rw [Numeral.Padded, hword] at hpadded
        exact Bool.false_ne_true hpadded.1
  | some n =>
      rw [Key.ofName, hword, ← Numeral.toDigits_eq_iff_not_padded hword, ← String.toList_inj]
      simp [Key.render]

/-! ## Literal steps -/

namespace Step

/-- A name that is a padded numeral. -/
def Padded : Step → Prop
  | .name text _ _ => Numeral.Padded text.toList
  | .verbatim _ | .any | .range _ | .group .. | .destructor _ => False

instance (step : Step) : Decidable step.Padded :=
  match step with
  | .name text _ _ => inferInstanceAs (Decidable (Numeral.Padded text.toList))
  | .verbatim _ | .any | .range _ | .group .. | .destructor _ => inferInstanceAs (Decidable False)

variable {step : Step}

theorem isGroup_eq_false_of_not_isOperator (h : step.isOperator = false) :
    step.isGroup = false := by
  cases step with
  | group exclude members => cases h
  | _ => rfl

theorem worth_of_not_isOperator (h : step.isOperator = false) : step.worth = Score.literal := by
  cases step with
  | name text bracketed expand =>
      cases h
      rfl
  | verbatim body => rfl
  | destructor d => rfl
  | _ => cases h

/-- A literal step of an accepted pattern accepts the text of its own segment, unless the segment
is the number of a padded numeral. -/
theorem accepts_render_iff {segment : Segment} (hliteral : step.isOperator = false)
    (hwell : step.WellFormed) (hsource : ∀ d, step = .destructor d → d.Accepted)
    (hsegment : step.segment? = some segment) :
    step.Accepts segment.render ↔ ¬ step.Padded := by
  cases step with
  | name text bracketed expand =>
      cases hliteral
      cases hsegment
      exact Key.render_ofName_eq_iff
  | verbatim body =>
      cases hsegment
      exact iff_of_true hwell not_false
  | destructor d =>
      cases hsegment
      exact iff_of_true (bare_toList_iff.mp (Destructor.bare_source (hsource d rfl))) not_false
  | _ => cases hliteral

end Step

/-! ## Chains without groups -/

variable {chain : Chain}

/-- A chain without groups matches a candidate of its length text by text. -/
theorem isSome_matchChain_iff_forall₂ {open_ : List Bool}
    (h : ∀ step ∈ chain, step.isGroup = false) (hne : chain ≠ []) {position : List String}
    (hlength : position.length = chain.length) :
    (matchChain open_ chain position).isSome = true ↔
      List.Forall₂ (fun step text => step.Accepts text) chain position := by
  induction chain generalizing position with
  | nil => exact absurd rfl hne
  | cons step rest ih =>
      obtain ⟨hstep, hrest⟩ := List.forall_mem_cons.mp h
      cases position with
      | nil => cases hlength
      | cons text more =>
          rw [matchChain, isSome_iff_standsAt, List.forall₂_cons]
          simp only [standsAt_matchStep_iff hstep]
          cases rest with
          | nil =>
              obtain rfl : more = [] := List.eq_nil_of_length_eq_zero (Nat.succ.inj hlength)
              simp [mayEnd, standsAt_some_iff]
          | cons behind rest =>
              rw [← ih hrest (List.cons_ne_nil _ _) (Nat.succ.inj hlength), isSome_iff_standsAt]
              simp

/-- A chain without groups scores what its steps are worth. -/
theorem score_of_plain {open_ : List Bool} (h : ∀ step ∈ chain, step.isGroup = false)
    (hne : chain ≠ []) {position : List String} {stand : Stand}
    (hstand : matchChain open_ chain position = some stand) :
    stand.2 = (chain.map Step.worth).sum := by
  have hmembers : ∀ step ∈ chain, ∀ member ∈ step.members, Chain.WellFormed member := by
    intro step hs member hm
    have hgroup := h step hs
    cases step with
    | group exclude members => cases hgroup
    | _ => cases hm
  obtain ⟨taken, hcourse, hscore⟩ := exists_course hne hmembers hstand
  rw [← hscore, courseScore, ← hcourse.map_snd_of_plain h, List.map_map]
  rfl

theorem matchRecord_of_plain (h : ∀ step ∈ chain, step.isGroup = false) (hne : chain ≠ [])
    {candidate : List Segment} (hlength : candidate.length = chain.length) :
    (List.Forall₂ (fun step segment => step.Accepts segment.render) chain candidate →
        chain.matchRecord candidate = ⟨true, (chain.map Step.worth).sum⟩) ∧
      (¬ List.Forall₂ (fun step segment => step.Accepts segment.render) chain candidate →
        chain.matchRecord candidate = .unmatched) := by
  have hc : candidate ≠ [] := by
    rintro rfl
    exact hne (List.eq_nil_of_length_eq_zero hlength.symm)
  have hiff : (matchChain [] chain (candidate.map Segment.render)).isSome = true ↔ _ :=
    isSome_matchChain_iff_forall₂ h hne ((List.length_map Segment.render).trans hlength)
  rw [List.forall₂_map_right_iff] at hiff
  rw [← hiff, Chain.matchRecord_of_ne_nil chain hc]
  cases hmatch : matchChain [] chain (candidate.map Segment.render) with
  | none => simp
  | some stand => simp [score_of_plain h hne hmatch]

/-! ## Wildcards in the places of a literal chain -/

/-- The chain with bare wildcards at some of its places. -/
def Chain.generalise (places : Finset Nat) (chain : Chain) : Chain :=
  chain.mapIdx fun i step => if i ∈ places then .any else step

variable {places : Finset Nat}

theorem Chain.length_generalise : (chain.generalise places).length = chain.length :=
  List.length_mapIdx

theorem Chain.generalise_empty : chain.generalise ∅ = chain := by
  refine List.ext_getElem length_generalise fun i _ _ => ?_
  simp [generalise]

theorem Chain.isGroup_of_mem_generalise (h : chain.isMatch = false) :
    ∀ step ∈ chain.generalise places, step.isGroup = false := by
  intro step hs
  obtain ⟨i, hi, rfl⟩ := List.mem_mapIdx.mp hs
  split
  · rfl
  · exact Step.isGroup_eq_false_of_not_isOperator
      (not_isMatch_iff.mp h _ (List.getElem_mem hi))

/-- The wildcards score as wildcards do, and the steps that are left as literal steps do. -/
theorem Chain.sum_worth_generalise (h : chain.isMatch = false)
    (hplaces : places ⊆ Finset.range chain.length) :
    ((chain.generalise places).map Step.worth).sum =
      Score.literal * (chain.length - places.card) + Score.any * places.card := by
  have hworth : (chain.generalise places).map Step.worth =
      (List.range chain.length).map fun i => if i ∈ places then Score.any else Score.literal := by
    refine List.ext_getElem (by simp [generalise]) fun i hi _ => ?_
    simp only [generalise, List.length_map, List.length_mapIdx] at hi
    have hstep := not_isMatch_iff.mp h _ (List.getElem_mem hi)
    simp only [generalise, List.getElem_map, List.getElem_mapIdx, List.getElem_range]
    split
    · rfl
    · exact Step.worth_of_not_isOperator hstep
  have hinside : (Finset.range chain.length).filter (· ∈ places) = places := by
    rw [Finset.filter_mem_eq_inter, Finset.inter_eq_right.mpr hplaces]
  have houtside : (Finset.range chain.length).filter (· ∉ places) =
      Finset.range chain.length \ places :=
    Finset.filter_notMem_eq_sdiff
  calc ((chain.generalise places).map Step.worth).sum
      = ∑ i ∈ Finset.range chain.length, if i ∈ places then Score.any else Score.literal := by
        rw [hworth]
        rfl
    _ = places.card * Score.any + (chain.length - places.card) * Score.literal := by
        rw [Finset.sum_ite, hinside, houtside, Finset.sum_const, Finset.sum_const,
          Finset.card_sdiff_of_subset hplaces, Finset.card_range, smul_eq_mul, smul_eq_mul]
    _ = _ := by ring

/-- Every padded numeral stands in one of the places. -/
def Chain.PaddedWithin (places : Finset Nat) (chain : Chain) : Prop :=
  ∀ i (h : i < chain.length), (chain[i]).Padded → i ∈ places

instance : Decidable (chain.PaddedWithin places) :=
  inferInstanceAs (Decidable (∀ i (h : i < chain.length), (chain[i]).Padded → i ∈ places))

theorem Chain.paddedWithin_empty_iff :
    chain.PaddedWithin ∅ ↔ ∀ step ∈ chain, ¬ step.Padded := by
  simp [PaddedWithin, List.forall_mem_iff_getElem]

/-- Of the steps of an accepted chain, only padded numerals fail against their own segments. -/
theorem Chain.forall₂_accepts_iff {text : String} (hparse : Chain.parse text = .ok chain)
    (hne : chain ≠ []) (hliteral : chain.isMatch = false) :
    List.Forall₂ (fun step segment => step.Accepts segment.render) (chain.generalise places)
        chain.segments ↔ chain.PaddedWithin places := by
  have hlength := length_segments hliteral
  have haccepts : ∀ i (hi : i < chain.length) (hi' : i < chain.segments.length),
      (chain[i]).Accepts (chain.segments[i]).render ↔ ¬ (chain[i]).Padded := by
    intro i hi hi'
    have hmem := List.getElem_mem hi
    refine Step.accepts_render_iff (not_isMatch_iff.mp hliteral _ hmem)
      ((wellFormed_of_parse hparse hne).of_mem _ hmem) (fun d hd => ?_)
      ((List.forall₂_iff_get.mp (forall₂_segments hliteral)).2 i hi hi')
    exact ⟨text, chain, hparse, hd ▸ hmem⟩
  rw [List.forall₂_iff_get]
  constructor
  · rintro ⟨-, hget⟩ i hi hpadded
    by_contra hkept
    have haccepted := hget i (by rwa [length_generalise]) (by rwa [hlength])
    simp only [generalise, List.get_eq_getElem, List.getElem_mapIdx, if_neg hkept] at haccepted
    exact (haccepts i hi _).mp haccepted hpadded
  · intro hwithin
    refine ⟨length_generalise.trans hlength.symm, fun i _ hi => ?_⟩
    simp only [generalise, List.get_eq_getElem, List.getElem_mapIdx]
    split
    · trivial
    · rename_i hkept
      exact (haccepts i (by rwa [hlength] at hi) hi).mpr fun hpadded =>
        hkept (hwithin i _ hpadded)

/-- A literal chain with wildcards in some of its places matches the segments that it stands for
if and only if no padded numeral is left in it. So the search agrees with the comparison of
segments just for chains without padded numerals. -/
theorem matchRecord_generalise {text : String} (hparse : Chain.parse text = .ok chain)
    (hne : chain ≠ []) (hliteral : chain.isMatch = false) {places : Finset Nat}
    (hplaces : places ⊆ Finset.range chain.segments.length) :
    let segments := chain.segments
    (chain.PaddedWithin places → (chain.generalise places).matchRecord segments =
        ⟨true, Score.literal * (segments.length - places.card) + Score.any * places.card⟩) ∧
      (¬ chain.PaddedWithin places →
        (chain.generalise places).matchRecord segments = .unmatched) ∧
      (chain.matchRecord segments = matchSegments segments segments ↔
        ∀ step ∈ chain, ¬ step.Padded) := by
  intro segments
  have hlength : segments.length = chain.length := Chain.length_segments hliteral
  have hrecord (places : Finset Nat) :
      (chain.PaddedWithin places → (chain.generalise places).matchRecord segments =
          ⟨true, ((chain.generalise places).map Step.worth).sum⟩) ∧
        (¬ chain.PaddedWithin places →
          (chain.generalise places).matchRecord segments = .unmatched) := by
    have hne' : chain.generalise places ≠ [] := by
      rwa [← List.length_pos_iff, Chain.length_generalise, List.length_pos_iff]
    rw [← Chain.forall₂_accepts_iff hparse hne hliteral]
    exact matchRecord_of_plain (Chain.isGroup_of_mem_generalise hliteral) hne'
      (hlength.trans Chain.length_generalise.symm)
  refine ⟨fun hwithin => ?_, (hrecord places).2, ?_⟩
  · rw [(hrecord places).1 hwithin, Chain.sum_worth_generalise hliteral (hlength ▸ hplaces),
      hlength]
  · have hsegments : matchSegments segments segments =
        ⟨true, ((chain.generalise ∅).map Step.worth).sum⟩ := by
      rw [Chain.sum_worth_generalise hliteral (Finset.empty_subset _), matchSegments, if_pos rfl,
        hlength, Finset.card_empty, Nat.sub_zero, Nat.mul_zero, Nat.add_zero]
    have hplain := hrecord ∅
    rw [← Chain.paddedWithin_empty_iff, hsegments]
    rw [Chain.generalise_empty] at hplain ⊢
    by_cases hwithin : chain.PaddedWithin ∅
    · exact iff_of_true (hplain.1 hwithin) hwithin
    · refine iff_of_false (fun heq => ?_) hwithin
      cases (hplain.2 hwithin).symm.trans heq

/-- The numeral with zeros in front gives way to a wildcard, and so do the first name and the
verbatim text. -/
theorem matchRecord_generalise_in_place_of_padded :
    let d : Destructor := ⟨.object [.plain "k"], "{k}"⟩
    let chain : Chain := [.name "a.b" false false, .name "3" true false, .verbatim "xy",
      .name "007" false false, .destructor d]
    Chain.parse "a\\.b[3].[[ x y ]].007.{ k }" = .ok chain ∧ chain ≠ [] ∧
      chain.isMatch = false ∧ {0, 2, 3} ⊆ Finset.range chain.segments.length ∧
      chain.PaddedWithin {0, 2, 3} ∧
      (chain.generalise {0, 2, 3}).matchRecord chain.segments = ⟨true, 11⟩ := by
  intro d chain
  have hparse : Chain.parse "a\\.b[3].[[ x y ]].007.{ k }" = .ok chain := by decide +kernel
  have hne : chain ≠ [] := List.cons_ne_nil _ _
  have hplaces : {0, 2, 3} ⊆ Finset.range chain.segments.length := by decide
  have hwithin : chain.PaddedWithin {0, 2, 3} := by decide
  exact ⟨hparse, hne, rfl, hplaces, hwithin,
    (matchRecord_generalise hparse hne rfl hplaces).1 hwithin⟩

/-- The name keeps its zeros, and its segment has none. -/
theorem matchRecord_ne_matchSegments_of_padded :
    let chain : Chain := [.name "007" false false]
    Chain.parse "007" = .ok chain ∧ chain.isMatch = false ∧ chain.generalise ∅ = chain ∧
      chain.segments = [.key (.index 7)] ∧
      chain.matchRecord chain.segments = .unmatched ∧
      matchSegments chain.segments chain.segments = ⟨true, 4⟩ := by
  intro chain
  exact ⟨by decide +kernel, rfl, rfl, rfl, by decide, by decide⟩

end DocPath
