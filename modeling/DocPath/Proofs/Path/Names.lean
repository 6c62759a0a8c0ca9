import DocPath.Proofs.Path.HandBack

/-! # Names joined by dots

Names are read back however they are spelled. So a literal path of plain names and indices is
compiled alike from its text and from its segments. -/

namespace DocPath

namespace Pattern

/-! ## Chains of names -/

theorem chain_of_spelling {name : String} {text after rest : List Char} {others : Chain}
    {fuel : Nat} (h : Spelling name.toList text) (hne : name ≠ "") (hafter : StartsIn [.dot] after)
    (hl : link fuel after = .ok (others, rest)) :
    chain (fuel + 1) (text ++ after) = .ok (.name name false false :: others, rest) := by
  have hindices : indices fuel after = .ok ([], after) :=
    indices_print (List.forall_mem_nil _) hafter (by decide) (Nat.zero_le fuel)
  apply chain_succ_eq_ok_iff.mpr
  exact .name (next_of_spelling h hne hafter false) hne hindices
    (accept_absent hafter (by decide) (by decide)) hl

/-- Two units of fuel for each name are enough. -/
theorem chain_intercalate {names : List String} {texts : List (List Char)}
    (h : List.Forall₂ (fun name text => Spelling name.toList text) names texts)
    (hnames : names ≠ []) (hne : ∀ name ∈ names, name ≠ "") {fuel : Nat}
    (hf : 2 * names.length ≤ fuel) :
    chain fuel (['.'].intercalate texts) = .ok (names.map (.name · false false), []) := by
  induction h generalizing fuel with
  | nil => exact absurd rfl hnames
  | @cons name text names texts hname hmore ih =>
      obtain ⟨hfirst, hothers⟩ := List.forall_mem_cons.mp hne
      obtain ⟨fuel, rfl⟩ : ∃ n, fuel = n + 2 := ⟨fuel - 2, by simp at hf; omega⟩
      cases hmore with
      | nil =>
          have hend : StartsIn [.dot] [] := Or.inl rfl
          have hl : link (fuel + 1) [] = .ok ([], []) :=
            link_succ_eq_ok_iff.mpr (.none rfl)
          have hc := chain_of_spelling hname hfirst hend hl
          rw [List.append_nil] at hc
          rwa [List.intercalate_singleton]
      | @cons next text' names texts hnext hmore =>
          have hfuel : 2 * (next :: names).length ≤ fuel := by simp at hf ⊢; omega
          have hc := ih (List.cons_ne_nil _ _) hothers hfuel
          have hl := link_succ_eq_ok_iff.mpr (.some (accept_present (by decide) _) hc)
          have hdot := startsIn_cons (List.mem_singleton_self Mark.dot)
            (['.'].intercalate (text' :: texts))
          rw [List.intercalate_cons_cons, List.append_assoc]
          exact chain_of_spelling hname hfirst hdot hl

theorem length_le_length_intercalate (texts : List (List Char)) :
    texts.length ≤ (['.'].intercalate texts).length + 1 := by
  induction texts with
  | nil => exact Nat.zero_le _
  | cons text texts ih =>
      cases texts with
      | nil => simp
      | cons text' texts =>
          rw [List.intercalate_cons_cons, List.length_append, List.length_append,
            List.length_singleton]
          simp only [List.length_cons] at ih ⊢
          omega

end Pattern

/-- Names joined by dots, however each is spelled, are read as the chain of these names. -/
theorem Chain.parse_intercalate {names texts : List String} (hne : ∀ name ∈ names, name ≠ "")
    (h : List.Forall₂ (fun name text => Spelling name.toList text.toList) names texts) :
    Chain.parse (".".intercalate texts) = .ok (names.map (.name · false false)) := by
  have htext : (".".intercalate texts).toList = ['.'].intercalate (texts.map String.toList) :=
    String.toList_intercalate
  cases names with
  | nil =>
      cases h
      rfl
  | cons name names =>
      have hspelled : List.Forall₂ (fun name text => Spelling name.toList text) (name :: names)
          (texts.map String.toList) := List.forall₂_map_right_iff.mpr h
      have hfuel : 2 * (name :: names).length ≤ 2 * (".".intercalate texts).toList.length + 2 := by
        have hlength := Pattern.length_le_length_intercalate (texts.map String.toList)
        rw [← hspelled.length_eq, ← htext] at hlength
        omega
      have hc := Pattern.chain_intercalate hspelled (List.cons_ne_nil _ _) hne hfuel
      rw [← htext] at hc
      obtain ⟨t, ht, -, heof⟩ := Pattern.next_of_chain_eq_ok hc
      exact Chain.parse_eq_ok_iff.mpr (.steps ht heof hc rfl rfl)

/-- A chain of names is literal, with one segment for each of them. -/
theorem Chain.segments_map_name (names : List String) :
    Chain.isMatch (names.map (.name · false false)) = false ∧
      Chain.segments (names.map (.name · false false)) =
        names.map fun name => .key (.ofName name) := by
  have hliteral : Chain.isMatch (names.map (.name · false false)) = false := by
    simp [Chain.isMatch, Step.isOperator]
  refine ⟨hliteral, ?_⟩
  rw [Chain.segments_of_not_isMatch hliteral, List.filterMap_map, ← List.filterMap_eq_map]
  rfl

/-! ## Plain segments -/

/-- The segment renders as a text that stands for it: a name of plain characters that is no
machine-word numeral, or an index that fits a machine word. -/
def Segment.Plain : Segment → Prop
  | .key (.name text) =>
      text ≠ "" ∧ (∀ c ∈ text.toList, isPlain c = true) ∧ Numeral.word? text.toList = none
  | .key (.index n) => n < Numeral.wordLimit
  | .destructor _ => False

theorem Segment.Plain.isPlain_render {segment : Segment} (h : segment.Plain) :
    segment.render ≠ "" ∧ ∀ c ∈ segment.render.toList, isPlain c = true := by
  match segment with
  | .key (.name text) => exact ⟨h.1, h.2.1⟩
  | .key (.index n) => exact ⟨Key.render_index_ne_empty n, Key.isPlain_render_index n⟩

theorem Segment.Plain.ofName_render {segment : Segment} (h : segment.Plain) :
    .key (.ofName segment.render) = segment := by
  match segment with
  | .key (.name text) => exact congrArg Segment.key (ofName_eq_name_iff.mpr ⟨rfl, h.2.2⟩)
  | .key (.index n) => exact congrArg Segment.key (Key.ofName_render_index h)

theorem Segment.Plain.spellsItself {segment : Segment} (h : segment.Plain) :
    segment.SpellsItself := by
  match segment with
  | .key (.name text) => exact ⟨stripBlanks_of_plain h.2.1, Or.inr h⟩
  | .key (.index n) => trivial

namespace Path

/-- Names joined by dots are read as the chain of these names and have these names as segments,
however each of them is spelled. So names and indices that stand for themselves make the same path
as a text and as a list. -/
theorem parse_intercalate_and_compile_joinSegments :
    (∀ names texts : List String, (∀ name ∈ names, name ≠ "") →
      List.Forall₂ (fun name text => Spelling name.toList text.toList) names texts →
      ∃ chain, Chain.parse (".".intercalate texts) = .ok chain ∧
        chain = names.map (.name · false false) ∧ chain.isMatch = false ∧
        chain.segments = names.map fun name => .key (.ofName name)) ∧
    (∀ segments : List Segment, (∀ segment ∈ segments, segment.Plain) →
      compile (.text (joinSegments segments)) = .ok (.literal (joinSegments segments) segments) ∧
      compile (.segments segments) = .ok (.literal (joinSegments segments) segments)) := by
  refine ⟨?_, ?_⟩
  · intro names texts hne h
    exact ⟨_, Chain.parse_intercalate hne h, rfl, Chain.segments_map_name names⟩
  · intro segments hplain
    have hself : List.Forall₂ (fun name text : String => Spelling name.toList text.toList)
        (segments.map Segment.render) (segments.map Segment.render) := by
      refine List.forall₂_same.mpr (List.forall_mem_map.mpr fun segment hs => ?_)
      exact spelling_of_plain (hplain segment hs).isPlain_render.2
    have hne : ∀ name ∈ segments.map Segment.render, name ≠ "" :=
      List.forall_mem_map.mpr fun segment hs => (hplain segment hs).isPlain_render.1
    have hparse := Chain.parse_intercalate hne hself
    obtain ⟨hliteral, hsegments⟩ := Chain.segments_map_name (segments.map Segment.render)
    have hback : (segments.map Segment.render).map (fun name => Segment.key (.ofName name)) =
        segments := by
      rw [List.map_map]
      exact (List.map_congr_left fun s hs => (hplain s hs).ofName_render).trans (List.map_id _)
    refine ⟨?_, ?_⟩
    · rw [compile, ofText, joinSegments, hparse]
      refine congrArg Except.ok ?_
      rw [ofChain, hliteral, hsegments, hback]
      rfl
    · rw [compile, flatMap_normalizeSegment_eq_iff.mpr fun s hs => (hplain s hs).spellsItself]

/-- A digit may be escaped in a numeral, and a numeral beyond the machine words stays a name. -/
theorem parse_intercalate_of_escaped_digit_and_great_numeral :
    let names := ["a.b", "007", "x y"]
    let texts := ["a\\.\\b", "0\\07", "x\\ y"]
    let segments : List Segment :=
      [.key (.name "a-b"), .key (.index 3), .key (.name "18446744073709551616")]
    (∀ name ∈ names, name ≠ "") ∧
      List.Forall₂ (fun name text => Spelling name.toList text.toList) names texts ∧
      (∃ chain, Chain.parse "a\\.\\b.0\\07.x\\ y" = .ok chain ∧
        chain.segments = [.key (.name "a.b"), .key (.index 7), .key (.name "x y")]) ∧
      (∀ segment ∈ segments, segment.Plain) ∧
      compile (.text "a-b.3.18446744073709551616") = compile (.segments segments) := by
  intro names texts segments
  have hne : ∀ name ∈ names, name ≠ "" := by decide
  have hspelled : List.Forall₂ (fun name text => Spelling name.toList text.toList) names texts := by
    refine .cons (.plain (by decide) (.escaped (.escaped .nil))) (.cons ?_ (.cons ?_ .nil))
    · exact .plain (by decide) (.escaped (.plain (by decide) .nil))
    · exact .plain (by decide) (.escaped (.plain (by decide) .nil))
  have hplain : ∀ segment ∈ segments, segment.Plain := by
    simp only [segments, List.forall_mem_cons]
    refine ⟨⟨by decide, ?_, by decide⟩, (by decide : 3 < Numeral.wordLimit), ⟨by decide, ?_,
      by decide⟩, List.forall_mem_nil _⟩
    · exact List.all_eq_true.mp (by decide : "a-b".toList.all isPlain = true)
    · exact List.all_eq_true.mp (by decide : "18446744073709551616".toList.all isPlain = true)
  obtain ⟨chain, hparse, -, -, hsegments⟩ :=
    parse_intercalate_and_compile_joinSegments.1 names texts hne hspelled
  obtain ⟨htext, hlist⟩ := parse_intercalate_and_compile_joinSegments.2 segments hplain
  refine ⟨hne, hspelled, ⟨chain, hparse, hsegments⟩, hplain, ?_⟩
  exact htext.trans hlist.symm

end Path

end DocPath
