import DocPath.Proofs.Pattern.Nesting

/-! # Groups and their complements

Behind steps without members, a group that excludes matches where a wildcard does and the group
with the same members does not. -/

namespace DocPath

variable {open_ : List Bool} {position : List String}

/-- Steps without members take one text each, and what follows them starts behind these. -/
theorem isSome_matchChain_append_iff {front behind : Chain}
    (h : ∀ step ∈ front, step.isGroup = false) (hne : behind ≠ []) :
    (matchChain open_ (front ++ behind) position).isSome = true ↔
      List.Forall₂ (fun step text => step.Accepts text) front (position.take front.length) ∧
        (matchChain open_ behind (position.drop front.length)).isSome = true := by
  induction front generalizing position with
  | nil => simp
  | cons step front ih =>
      obtain ⟨hstep, hfront⟩ := List.forall_mem_cons.mp h
      have hlast : (front ++ behind).isEmpty = false := by simp [hne]
      rw [List.cons_append, matchChain, isSome_iff_standsAt]
      cases position with
      | nil => simp [matchStep_nil hstep, not_standsAt_none]
      | cons text more =>
          simp only [standsAt_matchStep_iff hstep, hlast, Bool.false_eq_true, if_false]
          rw [List.length_cons, List.take_succ_cons, List.forall₂_cons, List.drop_succ_cons,
            and_assoc, ← ih hfront, isSome_iff_standsAt]
          simp

/-! ## One step at the end -/

theorem isSome_matchChain_any_iff :
    (matchChain open_ [.any] position).isSome = true ↔ position ≠ [] := by
  rw [matchChain, isSome_iff_standsAt]
  simp only [standsAt_matchStep_iff (show Step.any.isGroup = false from rfl)]
  cases position with
  | nil => simp
  | cons text more => simp [Step.Accepts, Step.absorbs, standsAt_some_iff]

theorem isSome_matchChain_inclusion_iff {members : List Chain} :
    (matchChain open_ [.group false members] position).isSome = true ↔
      position ≠ [] ∧ matchesAny (false :: open_) members position = true := by
  rw [isSome_matchChain_group_iff, matchesAny_iff]
  simp

theorem isSome_matchChain_exclusion_iff {members : List Chain} :
    (matchChain open_ [.group true members] position).isSome = true ↔
      (position ≠ [] → matchesAny (false :: open_) members position = false) := by
  rw [matchChain, isSome_iff_standsAt]
  simp only [standsAt_matchStep_exclusion_iff]
  simp [standsAt_some_iff]

theorem matched_append_iff {front : Chain} (h : ∀ step ∈ front, step.isGroup = false)
    (last : Step) {candidate : List Segment} (hc : candidate ≠ []) :
    let texts := candidate.map Segment.render
    (Chain.matchRecord (front ++ [last]) candidate).matched = true ↔
      List.Forall₂ (fun step text => step.Accepts text) front (texts.take front.length) ∧
        (matchChain [] [last] (texts.drop front.length)).isSome = true := by
  intro texts
  rw [matchRecord_matched_eq_isSome hc, isSome_matchChain_append_iff h (List.cons_ne_nil _ _)]

/-- Where a wildcard at the end matches, exactly one of a group there and the group that excludes
its members does. Where it does not, for another reason than the candidate's end, neither does. -/
theorem matched_exclusion_eq_not {front : Chain} (h : ∀ step ∈ front, step.isGroup = false)
    (members : List Chain) (candidate : List Segment) :
    let matched (last : Step) := (Chain.matchRecord (front ++ [last]) candidate).matched
    (matched .any = true → matched (.group true members) = !matched (.group false members)) ∧
      (matched .any = false → front.length < candidate.length →
        matched (.group false members) = false ∧ matched (.group true members) = false) := by
  intro matched
  refine ⟨fun hany => ?_, fun hany hlength => ?_⟩
  · have hc : candidate ≠ [] := by
      rintro rfl
      cases hany
    have hiff := fun last => matched_append_iff h last hc
    obtain ⟨hfront, hrest⟩ := (hiff .any).mp hany
    have hne := isSome_matchChain_any_iff.mp hrest
    have hinclusion : matched (.group false members) = true ↔ _ :=
      (hiff _).trans ((and_iff_right hfront).trans
        (isSome_matchChain_inclusion_iff.trans (and_iff_right hne)))
    have hexclusion : matched (.group true members) = true ↔ _ :=
      (hiff _).trans ((and_iff_right hfront).trans
        (isSome_matchChain_exclusion_iff.trans (forall_prop_of_true hne)))
    rw [Bool.eq_iff_iff, hexclusion, Bool.not_eq_true', ← Bool.not_eq_true, ← hinclusion,
      Bool.not_eq_true]
  · have hc : candidate ≠ [] := List.ne_nil_of_length_pos (Nat.zero_lt_of_lt hlength)
    have hiff := fun last => matched_append_iff h last hc
    have hne : (candidate.map Segment.render).drop front.length ≠ [] := by
      rw [drop_ne_nil_iff, List.length_map]
      exact hlength
    have hfront : ¬ List.Forall₂ (fun step text => step.Accepts text) front
        ((candidate.map Segment.render).take front.length) := by
      intro hfront
      have := (hiff .any).mpr ⟨hfront, isSome_matchChain_any_iff.mpr hne⟩
      exact Bool.false_ne_true (hany.symm.trans this)
    have hnone : ∀ last, matched last = false :=
      fun last => Bool.eq_false_iff.mpr fun hlast => hfront ((hiff last).mp hlast).1
    exact ⟨hnone _, hnone _⟩

/-- The only member matches with an exclusion past the end of the first candidate. The second has
a text out of range in front of the group. -/
theorem matched_exclusion_eq_not_of_nested_groups :
    let front : Chain := [.name "a" false true, .range ⟨some 0, some 9⟩]
    let members : List Chain := [[.group false [[.name "b" false false], [.any, .any]],
      .group true [[.name "c" false false]]]]
    let matched (last : Step) (candidate : List Segment) :=
      (Chain.matchRecord (front ++ [last]) candidate).matched
    let inside : List Segment := [.key (.name "ab"), .key (.index 3), .key (.name "b")]
    let outside : List Segment := [.key (.name "ab"), .key (.index 33), .key (.name "b")]
    (∀ step ∈ front, step.isGroup = false) ∧
      (matched .any inside = true ∧ matched (.group false members) inside = true ∧
        matched (.group true members) inside = false) ∧
      (matched .any outside = false ∧ matched (.group false members) outside = false ∧
        matched (.group true members) outside = false) := by
  intro front members matched inside outside
  have h : ∀ step ∈ front, step.isGroup = false := by decide
  have hinside : matched .any inside = true := by decide
  have hinclusion : matched (.group false members) inside = true := by decide
  have houtside : matched .any outside = false := by decide
  have hexclusion := (matched_exclusion_eq_not h members inside).1 hinside
  refine ⟨h, ⟨hinside, hinclusion, hexclusion.trans (congrArg _ hinclusion)⟩, houtside, ?_⟩
  exact (matched_exclusion_eq_not h members outside).2 houtside (by decide)

end DocPath
