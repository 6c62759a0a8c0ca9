import DocPath.Path.Edit
import DocPath.Proofs.Path.View
import DocPath.Proofs.Pattern.Origin
import Mathlib.Data.Set.Finite.Lemmas

/-! # Segments that are handed back

An edit hands out segments, and a list of segments is a pattern again. The names in it are read
once more, so only a segment that spells itself comes back as it was. -/

namespace DocPath

/-- Given as a segment, this one stands for itself alone. A name has no blanks, and is a plain
word or is not read as a literal path. -/
def Segment.SpellsItself : Segment → Prop
  | .key (.name text) => stripBlanks text = text ∧
      ((∀ chain, Chain.parse text = .ok chain → chain.isMatch = true) ∨
        text ≠ "" ∧ (∀ c ∈ text.toList, isPlain c = true) ∧ Numeral.word? text.toList = none)
  | .key (.index _) => True
  | .destructor _ => True

/-! ## What a name spells -/

theorem stripBlanks_eq_of_length {text : String}
    (h : (stripBlanks text).toList.length = text.toList.length) : stripBlanks text = text := by
  rw [← String.toList_inj]
  rw [stripBlanks, String.toList_ofList] at h ⊢
  exact List.filter_sublist.eq_of_length h

namespace Path

/-- The names that a name is read as are shorter, unless it spells itself. -/
theorem length_le_of_mem_normalizeText {raw name : String}
    (h : .key (.name name) ∈ normalizeText raw) :
    name.toList.length ≤ raw.toList.length ∧ (name.toList.length = raw.toList.length →
      name = raw ∧ Segment.SpellsItself (.key (.name raw))) := by
  have hstripped := length_stripBlanks_le raw
  obtain ⟨chain, hparse, -, hsegments⟩ | ⟨hnot, hkept⟩ := normalizeText_cases raw
  · rw [hsegments] at h
    obtain ⟨hle, heq⟩ := (Chain.readIn_of_parse hparse _ h).length_le
    refine ⟨hle.trans hstripped, fun hlength => ?_⟩
    have hraw : stripBlanks raw = raw := stripBlanks_eq_of_length (by omega)
    rw [hraw] at hparse heq
    obtain ⟨hname, hplain, hword⟩ := heq hlength
    refine ⟨String.toList_inj.mp hname, hraw, Or.inr ⟨?_, hplain, hword⟩⟩
    rintro rfl
    cases hparse
    cases h
  · rw [hkept] at h
    obtain rfl : name = stripBlanks raw := by simpa using h
    refine ⟨hstripped, fun hlength => ?_⟩
    have hraw := stripBlanks_eq_of_length hlength
    rw [hraw] at hnot
    exact ⟨hraw, hraw, Or.inl hnot⟩

theorem normalizeSegment_eq_iff {segment : Segment} :
    normalizeSegment segment = [segment] ↔ segment.SpellsItself := by
  match segment with
  | .key (.index _) | .destructor _ => exact iff_of_true rfl trivial
  | .key (.name text) =>
      constructor
      · intro h
        have hmem : .key (.name text) ∈ normalizeSegment (.key (.name text)) := by
          rw [h]
          exact List.mem_singleton_self _
        exact ((length_le_of_mem_normalizeText hmem).2 rfl).2
      · rintro ⟨hstrip, hnot | ⟨hne, hplain, hword⟩⟩
        · rw [← hstrip] at hnot
          exact (normalizeText_of_not_literal hnot).trans (by rw [hstrip])
        · rw [normalizeSegment, normalizeText_of_plain hne hplain,
            ofName_eq_name_iff.mpr ⟨rfl, hword⟩]

/-- A list of segments is read as itself just if each of them spells itself. -/
theorem flatMap_normalizeSegment_eq_iff {segments : List Segment} :
    segments.flatMap normalizeSegment = segments ↔ ∀ s ∈ segments, s.SpellsItself := by
  constructor
  · intro h
    by_contra hsome
    push Not at hsome
    -- Of the names that do not spell themselves take a longest one. Whatever name it was read
    -- from would be longer still.
    have hfinite : {s | s ∈ segments ∧ ¬ s.SpellsItself}.Finite :=
      (List.finite_toSet segments).subset fun s hs => hs.1
    obtain ⟨longest, ⟨hmem, hlongest⟩, hmax⟩ :=
      Set.exists_max_image _ (fun s : Segment => s.render.toList.length) hfinite hsome
    rw [← h] at hmem
    obtain ⟨origin, horigin, hread⟩ := List.mem_flatMap.mp hmem
    by_cases hspells : origin.SpellsItself
    · rw [normalizeSegment_eq_iff.mpr hspells] at hread
      obtain rfl := List.mem_singleton.mp hread
      exact hlongest hspells
    · have hle := hmax origin ⟨horigin, hspells⟩
      match origin, longest with
      | .key (.index _), _ | .destructor _, _ => exact hspells trivial
      | .key (.name _), .key (.index _) | .key (.name _), .destructor _ => exact hlongest trivial
      | .key (.name raw), .key (.name name) =>
          obtain ⟨hlength, heq⟩ := length_le_of_mem_normalizeText hread
          exact hspells (heq (hlength.antisymm hle)).2
  · intro h
    rw [List.flatMap_def, List.map_congr_left fun s hs => normalizeSegment_eq_iff.mpr (h s hs),
      ← List.flatMap_def, List.flatMap_singleton']

/-! ## Handing back -/

theorem eq_ofSegments_of_ofText {text : String} {path : Path} (h : ofText text = .ok path)
    (hliteral : path.isMatch = false) : path = ofSegments path.segments := by
  obtain ⟨chain, -, ⟨-, rfl⟩ | ⟨-, rfl⟩⟩ := ofText_cases h
  · rfl
  · cases hliteral

theorem splice_literal (entire : String) (segments : List Segment) (start count : Nat)
    (items : List Pattern) : (literal entire segments).splice start count items =
      .ok ((segments.drop start).take count, ofSegments (segments.take start ++
        items.flatMap contribution ++ (segments.drop start).drop count)) :=
  rfl

/-- What is put where segments were taken out comes between the same ones. -/
theorem splice_splice (segments : List Segment) (start count : Nat) (items : List Pattern) :
    let before := segments.take start
    let behind := (segments.drop start).drop count
    (ofSegments (before ++ behind)).splice start 0 items =
      .ok ([], ofSegments (before ++ items.flatMap contribution ++ behind)) := by
  intro before behind
  have hparts :
      (before ++ behind).take start = before ∧ (before ++ behind).drop start = behind := by
    by_cases hstart : start ≤ segments.length
    · have hlength : before.length = start := List.length_take_of_le hstart
      exact ⟨List.take_left' hlength, List.drop_left' hlength⟩
    · have hbehind : behind = [] := by
        dsimp only [behind]
        rw [List.drop_eq_nil_of_le (Nat.le_of_not_le hstart)]
        exact List.drop_nil
      have hlength : before.length ≤ start := List.length_take_le start segments
      rw [hbehind, List.append_nil]
      exact ⟨List.take_of_length_le hlength, List.drop_eq_nil_of_le hlength⟩
  rw [ofSegments, splice_literal, hparts.1, hparts.2]
  rfl

/-- A segment that is popped comes back as it was just if it spells itself, and so do segments
that are taken out, and all segments of a path that is compiled from them. -/
theorem handed_back_iff {text : String} {path : Path} (h : ofText text = .ok path)
    (hliteral : path.isMatch = false) (hne : path.segments ≠ []) :
    (∃ last shorter, path.pop = .ok (some last, shorter) ∧
      (shorter.push (.segments [last]) = .ok path ↔ last.SpellsItself)) ∧
    (∀ start count, ∃ removed shorter, path.splice start count [] = .ok (removed, shorter) ∧
      (shorter.splice start 0 (removed.map fun s => .segments [s]) = .ok ([], path) ↔
        ∀ s ∈ removed, s.SpellsItself)) ∧
    ∃ again, compile (.segments path.segments) = .ok again ∧ again.entire = path.entire ∧
      (again.segments = path.segments ↔ ∀ s ∈ path.segments, s.SpellsItself) := by
  obtain ⟨segments, rfl⟩ : ∃ segments, path = ofSegments segments :=
    ⟨_, eq_ofSegments_of_ofText h hliteral⟩
  refine ⟨?_, ?_, ?_⟩
  · obtain ⟨front, last, rfl⟩ : ∃ front last, segments = front ++ [last] :=
      ⟨_, _, (List.dropLast_append_getLast hne).symm⟩
    refine ⟨last, ofSegments front, by simp [pop, ofSegments, literalSegments], ?_⟩
    have hpush : (ofSegments front).push (.segments [last]) =
        .ok (ofSegments (front ++ [last].flatMap normalizeSegment)) := rfl
    rw [hpush, Except.ok.injEq, ofSegments_inj, List.append_cancel_left_eq,
      flatMap_normalizeSegment_eq_iff, List.forall_mem_singleton]
  · intro start count
    refine ⟨_, _, splice_literal _ segments start count [], ?_⟩
    have hparts : segments.take start ++ (segments.drop start).take count ++
        (segments.drop start).drop count = segments := by
      rw [List.append_assoc, List.take_append_drop, List.take_append_drop]
    have hback (removed : List Segment) :
        (removed.map fun s => Pattern.segments [s]).flatMap contribution =
          removed.flatMap normalizeSegment := by
      simp only [List.flatMap_map, contribution, List.flatMap_singleton]
    rw [List.flatMap_nil, List.append_nil, splice_splice, hback, Except.ok.injEq,
      Prod.mk.injEq, ofSegments_inj, eq_self, true_and, ← flatMap_normalizeSegment_eq_iff]
    refine (Eq.congr_right hparts.symm).trans ?_
    rw [List.append_cancel_right_eq, List.append_cancel_left_eq]
  · exact ⟨_, rfl, rfl, flatMap_normalizeSegment_eq_iff⟩

/-- An escaped star stays in its name, which is no pattern without the backslash. -/
theorem handed_back_behind_escape :
    let path : Path := ofSegments [.key (.name "a"), .key (.name "*b"), .key (.index 0),
      .destructor ⟨.object [.plain "x"], "{x}"⟩]
    ofText "a.\\*b[0].{x}" = .ok path ∧ path.isMatch = false ∧ path.segments ≠ [] ∧
      (∃ last shorter, path.pop = .ok (some last, shorter) ∧
        shorter.push (.segments [last]) = .ok path) ∧
      (∃ removed shorter, path.splice 1 2 [] = .ok (removed, shorter) ∧
        shorter.splice 1 0 (removed.map fun s => .segments [s]) = .ok ([], path)) ∧
      ∃ again, compile (.segments path.segments) = .ok again ∧
        again.segments = path.segments := by
  intro path
  have htext : ofText "a.\\*b[0].{x}" = .ok path := by decide +kernel
  have hne : path.segments ≠ [] := by simp [path, ofSegments, segments]
  have hstar : (Chain.parse "*b").isOk = false := by decide +kernel
  have hspells : ∀ s ∈ path.segments, s.SpellsItself := by
    simp only [path, ofSegments, segments, List.forall_mem_cons]
    refine ⟨⟨by decide, Or.inr ⟨by decide, ?_, by decide⟩⟩, ⟨by decide, Or.inl ?_⟩, trivial,
      trivial, List.forall_mem_nil _⟩
    · simpa using (by decide : isPlain 'a' = true)
    · intro chain hchain
      rw [hchain] at hstar
      cases hstar
  obtain ⟨⟨last, shorter, hpop, hpush⟩, hsplice, again, hcompile, -, hagain⟩ :=
    handed_back_iff htext rfl hne
  obtain ⟨removed, rest, hremoved, hrestored⟩ := hsplice 1 2
  refine ⟨htext, rfl, hne, ⟨last, shorter, hpop, hpush.mpr ?_⟩,
    ⟨removed, rest, hremoved, hrestored.mpr ?_⟩, again, hcompile, hagain.mpr hspells⟩
  · cases hpop
    exact hspells _ (List.getLast_mem hne)
  · cases hremoved
    exact fun s hs => hspells s (List.mem_of_mem_drop (List.mem_of_mem_take hs))

/-- A name with a dot in it is handed out as one segment and comes back as two. -/
theorem handed_back_as_two_segments :
    let dotted : Segment := .key (.name "a.b")
    let parts : List Segment := [.key (.name "a"), .key (.name "b")]
    ofText "a\\.b" = .ok (ofSegments [dotted]) ∧
      (ofSegments [dotted]).pop = .ok (some dotted, ofSegments []) ∧
      (ofSegments []).push (.segments [dotted]) = .ok (ofSegments parts) ∧
      compile (.segments [dotted]) = .ok (.literal "a.b" parts) ∧ parts ≠ [dotted] := by
  intro dotted parts
  exact ⟨by decide +kernel, rfl, by decide +kernel, by decide +kernel, by simp [parts]⟩

end Path

end DocPath
