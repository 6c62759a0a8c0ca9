import DocPath.Proofs.Path.Edits
import DocPath.Proofs.Path.HandBack
import DocPath.Proofs.Pattern.Spacing

/-! # Patterns as arguments

A pattern may be put into a path as a text or as the path that it was compiled to. The text loses
its blanks before it is read, and a match pattern has no segments. When both ways come to the
same. -/

namespace DocPath

/-! ## What a text and its path bring -/

theorem Chain.segments_eq_nil_iff {chain : Chain} (h : chain.isMatch = false) :
    chain.segments = [] ↔ chain = [] := by
  rw [← List.length_eq_zero_iff, Chain.length_segments h, List.length_eq_zero_iff]

/-- A name that is all there is of a text, but for blanks, is spelled with no escape. -/
theorem isPlain_of_readIn {text : String}
    (h : Segment.ReadIn text.toList (.key (.name (stripBlanks text)))) :
    ∀ c ∈ (stripBlanks text).toList, isPlain c = true := by
  have hchars : (stripBlanks text).toList = withoutBlanks text.toList := String.toList_ofList
  generalize hsegment : Segment.key (.name (stripBlanks text)) = segment at h
  cases h with
  | @name start rest raw hs hr =>
      obtain ⟨rfl, -⟩ := ofName_eq_name_iff.mp (Segment.key.inj hsegment).symm
      have hbare := bare_withoutBlanks text.toList
      rw [hchars] at hr ⊢
      have hstart := withoutBlanks_sublist hs
      have hread := withoutBlanks_sublist (readName_sublist start)
      rw [hr, withoutBlanks_append, bare_iff.mp hbare] at hread
      dsimp only at hread
      have hrest : withoutBlanks rest = [] := by
        have hlength := (hread.trans hstart).length_le
        rw [List.length_append] at hlength
        exact List.length_eq_zero_iff.mp (by omega)
      have hwhole : withoutBlanks start = withoutBlanks text.toList :=
        hstart.antisymm ((List.sublist_append_left ..).trans hread)
      have hread' := readName_withoutBlanks hr hbare (Or.inl hrest : StartsIn [] _)
      rw [hwhole] at hread'
      exact isPlain_of_readName_eq (by rw [hread'])
  | @verbatim inner body _ hs hv =>
      have hbody : withoutBlanks body = withoutBlanks text.toList := by
        simpa [stripBlanks, String.ofList_inj] using hsegment.symm
      have hinner := (withoutBlanks_sublist (readVerbatim_sublist hv)).length_le
      have htext := (withoutBlanks_sublist hs).length_le
      rw [withoutBlanks_append, hbody, List.length_append] at hinner
      rw [withoutBlanks_cons (by decide), withoutBlanks_cons (by decide)] at htext
      simp only [List.length_cons] at htext
      omega
  | destructor => cases hsegment

namespace Path

theorem normalizeText_eq_segments_iff {text : String} {chain : Chain}
    (h : Chain.parse text = .ok chain) (hliteral : chain.isMatch = false) :
    normalizeText text = chain.segments ↔ TightText text chain.segments := by
  rw [← Chain.exists_parse_stripBlanks_iff h hliteral]
  constructor
  · intro hsegments
    obtain ⟨bare, hparse, hbare, hread⟩ | ⟨hraw, hread⟩ := normalizeText_cases text
    · exact ⟨bare, hparse, hbare, hread.symm.trans hsegments⟩
    · -- A text that is kept raw would be a single plain name, and that is a pattern.
      rw [hread] at hsegments
      have hplain := isPlain_of_readIn
        (Chain.readIn_of_parse h _ (hsegments ▸ List.mem_singleton_self _))
      by_cases hne : stripBlanks text = ""
      · exact absurd (hraw [] (by rw [hne]; rfl)) (by simp [Chain.isMatch])
      · exact absurd (hraw _ (parse_of_plain hne hplain)) (by simp [Chain.isMatch, Step.isOperator])
  · rintro ⟨bare, hparse, hbare, hsegments⟩
    rw [normalizeText_of_literal hparse hbare, hsegments]

theorem normalizeText_eq_nil_iff {text : String} :
    normalizeText text = [] ↔ withoutBlanks text.toList = [] := by
  have hchars : (stripBlanks text).toList = withoutBlanks text.toList := String.toList_ofList
  constructor
  · intro h
    obtain ⟨bare, hparse, hbare, hsegments⟩ | ⟨-, hkept⟩ := normalizeText_cases text
    · rw [hsegments, Chain.segments_eq_nil_iff hbare, Chain.parse_eq_nil_iff hparse,
        ← withoutBlanks_eq_nil_iff, hchars, withoutBlanks_withoutBlanks] at h
      exact h
    · rw [hkept] at h
      cases h
  · intro h
    have htext : stripBlanks text = "" := by rw [stripBlanks, h]
    rw [normalizeText, htext]
    rfl

/-- A text brings the segments of its path just if that is a literal one to which no blank of
the text matters. -/
theorem contribution_text_eq_iff {text : String} {path : Path} (h : ofText text = .ok path) :
    contribution (.text text) = contribution (.path path) ↔
      path.isMatch = false ∧ TightText text path.segments := by
  obtain ⟨chain, hparse, ⟨hliteral, rfl⟩ | ⟨hmatch, rfl⟩⟩ := ofText_cases h
  · exact (normalizeText_eq_segments_iff hparse hliteral).trans (and_iff_right rfl).symm
  · refine iff_of_false ?_ (by simp [isMatch])
    intro hnil
    obtain rfl := (Chain.parse_eq_nil_iff hparse).mpr
      (withoutBlanks_eq_nil_iff.mp (normalizeText_eq_nil_iff.mp hnil))
    cases hmatch

/-- A path brings nothing just if it is a match pattern, or was compiled from blanks. -/
theorem contribution_path_eq_nil_iff {text : String} {path : Path} (h : ofText text = .ok path) :
    contribution (.path path) = [] ↔ path.isMatch = true ∨ withoutBlanks text.toList = [] := by
  obtain ⟨chain, hparse, ⟨hliteral, rfl⟩ | ⟨-, rfl⟩⟩ := ofText_cases h
  · rw [withoutBlanks_eq_nil_iff, ← Chain.parse_eq_nil_iff hparse, or_iff_right (by simp [isMatch,
      ofSegments])]
    exact Chain.segments_eq_nil_iff hliteral
  · exact iff_of_true rfl (Or.inl rfl)

end Path

/-! ## Putting patterns into paths -/

/-- The ways to put a pattern into a path. -/
inductive Insertion where
  | concat
  | push
  | splice (start count : Nat) (before behind : List Pattern)

namespace Insertion

def edit (pattern : Pattern) : Insertion → Edit
  | concat => .concat pattern
  | push => .push pattern
  | splice start count before behind => .splice start count (before ++ pattern :: behind)

/-- What is made of a literal path depends on the segments that the pattern brings. -/
theorem apply_edit_eq_iff (insertion : Insertion) {path : Path} (hliteral : path.isMatch = false)
    {p q : Pattern} : (insertion.edit p).apply path = (insertion.edit q).apply path ↔
      Path.contribution p = Path.contribution q := by
  cases path with
  | pattern text chain => cases hliteral
  | literal entire segments =>
      have happend : (.ok (.ofSegments (segments ++ Path.contribution p)) : Except PathError Path) =
          .ok (.ofSegments (segments ++ Path.contribution q)) ↔
            Path.contribution p = Path.contribution q := by
        rw [Except.ok.injEq, Path.ofSegments_inj, List.append_cancel_left_eq]
      cases insertion with
      | concat | push => exact happend
      | splice start count before behind =>
          simp only [edit, Edit.apply, Path.splice_literal, Except.map, Except.ok.injEq,
            Path.ofSegments_inj, List.flatMap_append, List.flatMap_cons,
            List.append_cancel_left_eq, List.append_cancel_right_eq]

/-- A text and the path that it was compiled to make the same of a literal path, in every way to
put them in, just if the text is a literal pattern to which no blank matters. The text is left
out just if it is blank, and the path also if it is a match pattern. -/
theorem apply_edit_text_iff {text : String} {other : Path} (h : Path.ofText text = .ok other)
    {path : Path} (hliteral : path.isMatch = false) (insertion : Insertion) :
    let made (pattern : Pattern) := (insertion.edit pattern).apply path
    (made (.text text) = made (.path other) ↔
      other.isMatch = false ∧ TightText text other.segments) ∧
    (made (.text text) = made (.segments []) ↔ withoutBlanks text.toList = []) ∧
    (made (.path other) = made (.segments []) ↔
      other.isMatch = true ∨ withoutBlanks text.toList = []) := by
  intro made
  refine ⟨?_, ?_, ?_⟩
  · exact (insertion.apply_edit_eq_iff hliteral).trans (Path.contribution_text_eq_iff h)
  · exact (insertion.apply_edit_eq_iff hliteral).trans Path.normalizeText_eq_nil_iff
  · exact (insertion.apply_edit_eq_iff hliteral).trans (Path.contribution_path_eq_nil_iff h)

/-- Blanks around tokens do not matter, nor do those within a verbatim body or an expression. -/
theorem apply_edit_text_of_blanks_around_tokens :
    let text := " a\\.b [ 0 ] . [[ x.y ]] . { c : [ [ d ] ] } "
    let front : List Segment := [.key (.name "r")]
    let segments : List Segment := [.key (.name "a.b"), .key (.index 0), .key (.name "x.y"),
      .destructor ⟨.object [.bound "c" (.nested (.array [.nested (.array [.name "d"])]))],
        "{c:[[d]]}"⟩]
    Path.ofText text = .ok (.ofSegments segments) ∧ TightText text segments ∧
      (concat.edit (.text text)).apply (.ofSegments front) =
        (concat.edit (.path (.ofSegments segments))).apply (.ofSegments front) ∧
      (concat.edit (.path (.ofSegments segments))).apply (.ofSegments front) =
        .ok (.ofSegments (front ++ segments)) := by
  intro text front segments
  have htext : Path.ofText text = .ok (.ofSegments segments) := by decide +kernel
  have hverbatims : Pattern.verbatims text =
      [" x.y ]] . { c : [ [ d ] ] } ".toList] := by decide +kernel
  have htight : TightText text segments := by
    refine ⟨by decide, ?_⟩
    rw [hverbatims]
    decide
  have hmade := (apply_edit_text_iff htext (rfl : (Path.ofSegments front).isMatch = false) concat).1
  exact ⟨htext, htight, hmade.mpr ⟨rfl, htight⟩, rfl⟩

/-- A blank that belongs to a name gets lost with the text, and a match pattern with the path. -/
theorem apply_edit_text_ne_of_escaped_blank :
    let path : Path := .ofSegments [.key (.name "x")]
    let spaced : Path := .ofSegments [.key (.name "a b")]
    let star : Path := .pattern "*" [.any]
    Path.ofText "a\\ b" = .ok spaced ∧
      path.concat (.text "a\\ b") = .ok (.ofSegments [.key (.name "x"), .key (.name "ab")]) ∧
      path.concat (.path spaced) = .ok (.ofSegments [.key (.name "x"), .key (.name "a b")]) ∧
      path.concat (.text "a\\ b") ≠ path.concat (.path spaced) ∧
      Path.ofText "*" = .ok star ∧
      path.concat (.text "*") = .ok (.ofSegments [.key (.name "x"), .key (.name "*")]) ∧
      path.concat (.path star) = .ok path := by
  intro path spaced star
  have htext : path.concat (.text "a\\ b") =
      .ok (.ofSegments [.key (.name "x"), .key (.name "ab")]) := by decide +kernel
  have hpath : path.concat (.path spaced) =
      .ok (.ofSegments [.key (.name "x"), .key (.name "a b")]) := rfl
  refine ⟨by decide +kernel, htext, hpath, ?_, by decide +kernel, by decide +kernel, rfl⟩
  rw [htext, hpath, Ne, Except.ok.injEq, Path.ofSegments_inj]
  simp

end Insertion

end DocPath
