import DocPath.Proofs.Pattern.Exclusion
import DocPath.Proofs.Pattern.Literal

/-! # Ranges against indices

A range behind literal steps matches the indices between its bounds. Where the upper bound is left
out, the indices end where signed machine words do. -/

namespace DocPath

/-! ## Indices as numerals -/

theorem Step.accepts_range_index_iff {bounds : Bounds} {n : Nat} :
    (Step.range bounds).Accepts (Key.index n).render ↔
      (n : Int) < Numeral.signedLimit ∧ (∀ low ∈ bounds.low, low ≤ (n : Int)) ∧
        ∀ high ∈ bounds.high, (n : Int) ≤ high := by
  have hread : Numeral.signedWord? (Key.index n).render.toList =
      if (n : Int) < Numeral.signedLimit then some (n : Int) else none := by
    rw [← Numeral.signedWord?_toDigits]
    simp [Key.render]
  rw [Step.Accepts, hread]
  by_cases hlimit : (n : Int) < Numeral.signedLimit
  · simp [hlimit]
  · simp [hlimit]

/-- An upper bound that fits a signed machine word keeps out everything that does not. -/
theorem Bounds.Fits.lt_signedLimit {bounds : Bounds} (h : bounds.Fits) {high : Int}
    (hhigh : bounds.high = some high) {n : Int} (hn : n ≤ high) : n < Numeral.signedLimit :=
  lt_of_le_of_lt hn (h high (Or.inr hhigh)).2

/-! ## Literal steps in front -/

/-- The chain is literal, and its steps accept the segments one by one. -/
def Chain.Spells (chain : Chain) (segments : List Segment) : Prop :=
  chain.isMatch = false ∧
    List.Forall₂ (fun step segment => step.Accepts segment.render) chain segments

/-- A literal step for a segment. A name cannot be empty, a verbatim text can. -/
def Segment.step (segment : Segment) : Step :=
  if segment.render = "" then .verbatim "" else .name segment.render false false

theorem Segment.isOperator_step (segment : Segment) : segment.step.isOperator = false := by
  unfold step
  split <;> rfl

theorem Segment.accepts_step (segment : Segment) : segment.step.Accepts segment.render := by
  unfold step
  split
  · rename_i hempty
    rw [hempty]
    rfl
  · rfl

theorem Segment.reprinted_step (segment : Segment) : segment.step.reprinted = segment.step := by
  unfold step
  split <;> rfl

theorem reprintedSteps_map_step (segments : List Segment) :
    reprintedSteps (segments.map Segment.step) = segments.map Segment.step := by
  induction segments with
  | nil => rfl
  | cons segment segments ih =>
      rw [List.map_cons, reprintedSteps, segment.reprinted_step, ih]

theorem Segment.wellFormed_step_cons (segment : Segment) {after : Chain}
    (h : after ≠ [] → after.WellFormed) : Chain.WellFormed (segment.step :: after) := by
  unfold step
  split
  · exact .verbatim rfl h
  · rename_i hne
    exact Pattern.wellFormed_nameSteps hne (List.forall_mem_nil _) h false

theorem Chain.spells_map_step (segments : List Segment) :
    Chain.Spells (segments.map Segment.step) segments := by
  refine ⟨not_isMatch_iff.mpr (List.forall_mem_map.mpr fun s _ => s.isOperator_step), ?_⟩
  rw [List.forall₂_map_left_iff]
  exact List.forall₂_same.mpr fun s _ => s.accepts_step

theorem Chain.wellFormed_map_step_append (segments : List Segment) {last : Chain}
    (h : last.WellFormed) : Chain.WellFormed (segments.map Segment.step ++ last) := by
  induction segments with
  | nil => exact h
  | cons segment segments ih => exact segment.wellFormed_step_cons fun _ => ih

theorem Chain.exists_parse_eq_range (segments : List Segment) {bounds : Bounds}
    (h : bounds.Fits) :
    ∃ text, Chain.parse text = .ok (segments.map Segment.step ++ [.range bounds]) := by
  have hwell := wellFormed_map_step_append segments (.range h (absurd rfl))
  refine ⟨_, (parse_print hwell).trans (congrArg Except.ok ?_)⟩
  rw [reprinted, reprintedSteps_append, reprintedSteps_map_step]
  rfl

/-! ## The range behind them -/

theorem isSome_matchChain_range_iff {bounds : Bounds} {text : String} :
    (matchChain [] [.range bounds] [text]).isSome = true ↔ (Step.range bounds).Accepts text := by
  rw [isSome_matchChain_iff_forall₂ (by simp [Step.isGroup]) (List.cons_ne_nil _ _) rfl]
  simp

theorem matched_range_append_iff {front : Chain} {segments : List Segment}
    (h : front.Spells segments) (bounds : Bounds) (n : Nat) :
    (Chain.matchRecord (front ++ [.range bounds]) (segments ++ [.key (.index n)])).matched = true ↔
      (Step.range bounds).Accepts (Key.index n).render := by
  obtain ⟨hliteral, haccepts⟩ := h
  have hgroup : ∀ step ∈ front, step.isGroup = false := fun step hs =>
    Step.isGroup_eq_false_of_not_isOperator (Chain.not_isMatch_iff.mp hliteral step hs)
  have hlength : (segments.map Segment.render).length = front.length := by
    rw [List.length_map, haccepts.length_eq]
  have htexts : (segments ++ [Segment.key (.index n)]).map Segment.render =
      segments.map Segment.render ++ [(Key.index n).render] := by
    rw [List.map_append]
    rfl
  refine (matched_append_iff hgroup (.range bounds) (by simp)).trans ?_
  rw [htexts, List.take_left' hlength, List.drop_left' hlength, isSome_matchChain_range_iff,
    List.forall₂_map_right_iff]
  exact and_iff_right haccepts

/-- Literal steps for any segments, and a range behind them, are read from some text. However they
are written, they match these segments with an index behind them if and only if the index lies
between the bounds and, where the upper bound is left out, fits a signed machine word. -/
theorem matched_range_iff (segments : List Segment) {bounds : Bounds} (hbounds : bounds.Fits) :
    (∃ text front, Chain.parse text = .ok (front ++ [.range bounds]) ∧
        Chain.Spells front segments) ∧
      ∀ front : Chain, front.Spells segments → ∀ n : Nat,
        let candidate := segments ++ [.key (.index n)]
        (Chain.matchRecord (front ++ [.range bounds]) candidate).matched = true ↔
          (∀ low ∈ bounds.low, low ≤ (n : Int)) ∧ (∀ high ∈ bounds.high, (n : Int) ≤ high) ∧
            (bounds.high = none → (n : Int) < Numeral.signedLimit) := by
  constructor
  · obtain ⟨text, htext⟩ := Chain.exists_parse_eq_range segments hbounds
    exact ⟨text, _, htext, Chain.spells_map_step segments⟩
  · intro front hfront n candidate
    rw [matched_range_append_iff hfront, Step.accepts_range_index_iff]
    constructor
    · rintro ⟨hlimit, hlow, hhigh⟩
      exact ⟨hlow, hhigh, fun _ => hlimit⟩
    · rintro ⟨hlow, hhigh, hopen⟩
      refine ⟨?_, hlow, hhigh⟩
      cases h : bounds.high with
      | none => exact hopen h
      | some high => exact hbounds.lt_signedLimit h (hhigh high h)

/-- The upper bound is the greatest signed machine word, and an index may be equal to it. -/
theorem matched_range_of_greatest_index :
    let bounds : Bounds := ⟨some (-1), some 9223372036854775807⟩
    let segments : List Segment := [.key (.name "a b"), .key (.index 0)]
    let front : Chain := [.verbatim "ab", .name "0" false false]
    bounds.Fits ∧ front.Spells segments ∧
      (Chain.matchRecord (front ++ [.range bounds])
        (segments ++ [.key (.index 9223372036854775807)])).matched = true := by
  intro bounds segments front
  have hbounds : bounds.Fits := by
    rintro n (h | h)
    · cases h
      decide
    · cases h
      decide
  have hfront : front.Spells segments := ⟨rfl, .cons rfl (.cons rfl .nil)⟩
  refine ⟨hbounds, hfront, ?_⟩
  refine ((matched_range_iff segments hbounds).2 front hfront 9223372036854775807).mpr ?_
  simp [bounds]

/-- An index past the signed machine words lies in no range, however far up it is open. -/
theorem not_matched_open_range_of_great_index :
    let bounds : Bounds := ⟨some 5, none⟩
    let chain : Chain := [.name "a" false false, .range bounds]
    let n := 9223372036854775808
    Chain.parse "a.*[5:]" = .ok chain ∧ n < Numeral.wordLimit ∧
      (∀ low ∈ bounds.low, low ≤ (n : Int)) ∧ (∀ high ∈ bounds.high, (n : Int) ≤ high) ∧
      (chain.matchRecord [.key (.name "a"), .key (.index n)]).matched = false := by
  intro bounds chain n
  refine ⟨by decide +kernel, by decide, by simp [bounds, n], by simp [bounds], ?_⟩
  decide

end DocPath
