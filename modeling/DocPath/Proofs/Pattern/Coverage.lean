import DocPath.Proofs.Pattern.Widening

/-! # Lexemes cover their text

Whatever flags a text is read under, its lexemes take it up from its beginning, one behind the
other and with blanks only between them, to its end or to a verbatim body that is not closed. -/

namespace DocPath

/-! ## Faults -/

/-- Each `]]` in the body is escaped: there is a backslash in front of its first bracket. Only
brackets can be escaped in a body, so the backslash itself never is. -/
def Unclosed (body : List Char) : Prop :=
  ∀ front behind, body = front ++ ']' :: ']' :: behind → front.getLast? = some '\\'

theorem unclosed_of_length_lt {body : List Char} (h : body.length < 2) : Unclosed body := by
  rintro front behind rfl
  simp only [List.length_append, List.length_cons] at h
  omega

theorem unclosed_escaped_iff {d : Char} (hd : d = '[' ∨ d = ']') (body : List Char) :
    Unclosed ('\\' :: d :: body) ↔ Unclosed body := by
  have hne : d ≠ '\\' := by
    rcases hd with rfl | rfl
    all_goals decide
  constructor
  · intro h front behind htext
    have hlast := h ('\\' :: d :: front) behind (by simp [htext])
    cases front with
    | nil => simp [hne] at hlast
    | cons c front => simpa using hlast
  · intro h front behind htext
    match front with
    | [] => simp at htext
    | [c] =>
        obtain rfl : '\\' = c := (List.cons.inj htext).1
        rfl
    | c :: d' :: front =>
        simp only [List.cons_append, List.cons.injEq] at htext
        have hlast := h front behind htext.2.2
        simp [List.getLast?_cons, hlast]

theorem unclosed_cons_cons_iff {c d : Char} (hclose : ¬(c = ']' ∧ d = ']'))
    (hescape : ¬(c = '\\' ∧ (d = '[' ∨ d = ']'))) (body : List Char) :
    Unclosed (c :: d :: body) ↔ Unclosed (d :: body) := by
  constructor
  · intro h front behind htext
    have hlast := h (c :: front) behind (by simp [htext])
    cases front with
    | nil =>
        obtain rfl : c = '\\' := by simpa using hlast
        exact absurd ⟨rfl, .inr (List.cons.inj htext).1⟩ hescape
    | cons c' front => simpa using hlast
  · intro h front behind htext
    cases front with
    | nil =>
        simp only [List.nil_append, List.cons.injEq] at htext
        exact absurd ⟨htext.1, htext.2.1⟩ hclose
    | cons c' front =>
        simp only [List.cons_append, List.cons.injEq] at htext
        have hlast := h front behind htext.2
        simp [List.getLast?_cons, hlast]

theorem readVerbatim_eq_none_iff {body : List Char} :
    readVerbatim body = none ↔ Unclosed body := by
  fun_induction readVerbatim body with
  | case1 | case2 => exact iff_of_true rfl (unclosed_of_length_lt (by simp))
  | case3 c d body hclose =>
      obtain ⟨rfl, rfl⟩ := hclose
      refine iff_of_false (by simp) fun h => ?_
      cases h [] body rfl
  | case4 c d body hclose hescape ih =>
      obtain ⟨rfl, hd⟩ := hescape
      rw [Option.map_eq_none_iff, ih, unclosed_escaped_iff hd]
  | case5 c d body hclose hescape ih =>
      rw [Option.map_eq_none_iff, ih, unclosed_cons_cons_iff hclose hescape]

/-- Behind blanks the text opens a verbatim body, which is not closed. -/
def OpensUnclosed (text : List Char) : Prop :=
  ∃ gap body, (∀ c ∈ gap, isBlank c = true) ∧ text = gap ++ '[' :: '[' :: body ∧ Unclosed body

theorem OpensUnclosed.two_le_length {text : List Char} (h : OpensUnclosed text) :
    2 ≤ text.length := by
  obtain ⟨gap, body, -, rfl, -⟩ := h
  simp only [List.length_append, List.length_cons]
  omega

theorem opensUnclosed_iff {text : List Char} :
    OpensUnclosed text ↔
      ∃ body, text.dropWhile isBlank = '[' :: '[' :: body ∧ readVerbatim body = none := by
  simp only [readVerbatim_eq_none_iff]
  constructor
  · rintro ⟨gap, body, hgap, rfl, hbody⟩
    refine ⟨body, ?_, hbody⟩
    rw [List.dropWhile_append_of_pos hgap]
    exact dropWhile_char .bracketL _
  · rintro ⟨body, hstart, hbody⟩
    obtain ⟨gap, htext, hgap⟩ := exists_blanks text
    rw [hstart] at htext
    exact ⟨gap, body, withoutBlanks_eq_nil_iff.mp hgap, htext, hbody⟩

namespace Lexeme

theorem next_eq_error_iff {inside : Bool} {text : List Char} {fault : ParseError} :
    next inside text = .error fault ↔
      fault = .unexpectedEnd .closingVerbatim ∧ inside = false ∧ OpensUnclosed text := by
  rw [opensUnclosed_iff]
  constructor
  · intro h
    simp only [next] at h
    split at h
    · cases h
    · rename_i c rest hs
      split at h
      · cases h
      · rename_i hm
        obtain rfl : c = '[' := Mark.ofChar?_eq_some_iff.mp hm
        split at h
        · split at h
          · cases h
          · rename_i hv
            cases h
            exact ⟨rfl, rfl, _, hs, hv⟩
        · cases h
      · cases h
  · rintro ⟨rfl, rfl, body, hs, hv⟩
    have hm : Mark.ofChar? '[' = some .bracketL := Mark.ofChar?_char .bracketL
    simp only [next, hs, hm, hv]

/-- A reading that succeeds is at the end of the text, or takes characters behind blanks. -/
theorem exists_taken_of_next {inside : Bool} {text : List Char} {t : Lexeme}
    (h : next inside text = .ok t) :
    (t = ⟨.eof, [], []⟩ ∧ ∀ c ∈ text, isBlank c = true) ∨
      (t.token ≠ .eof ∧ ∃ gap taken, (∀ c ∈ gap, isBlank c = true) ∧ taken ≠ [] ∧
        text = gap ++ t.start ∧ t.start = taken ++ t.rest) := by
  by_cases heof : t.token = .eof
  · refine .inl ⟨?_, (token_eq_eof_iff h).mp heof⟩
    cases next_eq_ok_iff.mp h with
    | eof _ => rfl
    | _ => cases heof
  · obtain ⟨gap, htext, hgap, -⟩ := exists_gap_of_next h
    obtain ⟨taken, htaken⟩ := rest_suffix_of_next h
    refine .inr ⟨heof, gap, taken, hgap, ?_, htext, htaken.symm⟩
    rintro rfl
    have hlt := length_rest_lt_of_next h heof
    simp [← htaken] at hlt

end Lexeme

/-! ## Tilings -/

/-- The lexemes take up the text in front of `last`. Each begins behind blanks where the one before
it is over, and takes at least one character; the end begins behind blanks that nothing follows. -/
inductive Tiling : List Char → List Lexeme → List Char → Prop where
  | nil {last : List Char} : Tiling last [] last
  | eof {gap : List Char} : (∀ c ∈ gap, isBlank c = true) → Tiling gap [⟨.eof, [], []⟩] []
  | cons {gap taken rest last : List Char} {token : Token} {run : List Lexeme} :
      (∀ c ∈ gap, isBlank c = true) → token ≠ .eof → taken ≠ [] → Tiling rest run last →
      Tiling (gap ++ (taken ++ rest)) (⟨token, taken ++ rest, rest⟩ :: run) last

/-- However many readings there are, their lexemes are a tiling up to the end of the text, to a
verbatim body that is not closed, or to where the flags are used up. -/
theorem exists_tiling_lexemesUnder (flags : List Bool) (text : List Char) :
    ∃ run fault last, lexemesUnder flags text = (run, fault) ∧ Tiling text run last ∧
      ((fault = none ∧ last = [] ∧ ∃ front, run = front ++ [⟨.eof, [], []⟩]) ∨
        (fault = some (.unexpectedEnd .closingVerbatim) ∧ flags[run.length]? = some false ∧
          OpensUnclosed last) ∨
        (fault = none ∧ run.length = flags.length ∧ ∀ t ∈ run, t.token ≠ .eof)) := by
  induction flags generalizing text with
  | nil => exact ⟨[], none, text, rfl, .nil, .inr (.inr (by simp))⟩
  | cons inside flags ih =>
      rw [lexemesUnder]
      cases hnext : Lexeme.next inside text with
      | error fault =>
          obtain ⟨rfl, rfl, hopens⟩ := Lexeme.next_eq_error_iff.mp hnext
          exact ⟨[], _, text, rfl, .nil, .inr (.inl ⟨rfl, rfl, hopens⟩)⟩
      | ok t =>
          rcases Lexeme.exists_taken_of_next hnext with ⟨rfl, hblank⟩ | ⟨heof, hconsumed⟩
          · exact ⟨_, none, [], rfl, .eof hblank, .inl ⟨rfl, rfl, [], rfl⟩⟩
          · obtain ⟨run, fault, last, hrun, htiling, hend⟩ := ih t.rest
            obtain ⟨gap, taken, hgap, htaken, rfl, hstart⟩ := hconsumed
            have hcons : Tiling (gap ++ t.start) (t :: run) last := by
              have htile := Tiling.cons hgap heof htaken htiling
              rwa [← hstart] at htile
            refine ⟨t :: run, fault, last, by simp [heof, hrun], hcons, ?_⟩
            rcases hend with ⟨hfault, hlast, front, rfl⟩ | hfailed | ⟨hfault, hlength, hne⟩
            · exact .inl ⟨hfault, hlast, t :: front, rfl⟩
            · exact .inr (.inl hfailed)
            · refine .inr (.inr ⟨hfault, congrArg (· + 1) hlength, ?_⟩)
              exact List.forall_mem_cons.mpr ⟨heof, hne⟩

namespace Tiling

variable {text last : List Char} {run : List Lexeme}

theorem length_add_le (h : Tiling text run last) : run.length + last.length ≤ text.length + 1 := by
  induction h with
  | nil => simp
  | eof => simp
  | cons _ _ htaken _ ih =>
      have hpos := List.length_pos_iff.mpr htaken
      simp only [List.length_cons, List.length_append]
      omega

theorem length_add_le_of_ne_eof (h : Tiling text run last) (hne : ∀ t ∈ run, t.token ≠ .eof) :
    run.length + last.length ≤ text.length := by
  induction h with
  | nil => simp
  | eof => simp at hne
  | cons _ _ htaken _ ih =>
      have hpos := List.length_pos_iff.mpr htaken
      have hrest := ih (List.forall_mem_cons.mp hne).2
      simp only [List.length_cons, List.length_append]
      omega

theorem length_le_of_mem (h : Tiling text run last) :
    ∀ t ∈ run, t.rest.length ≤ t.start.length ∧ t.start.length ≤ text.length := by
  induction h with
  | nil => simp
  | eof => simp
  | cons _ _ _ _ ih =>
      refine List.forall_mem_cons.mpr ⟨by simp, fun t ht => ?_⟩
      obtain ⟨hrest, hstart⟩ := ih t ht
      simp only [List.length_append]
      omega

end Tiling

/-! ## Places -/

namespace Lexeme

/-- The place of the lexeme in a text of `size` characters that it was read from. -/
def position (size : Nat) (t : Lexeme) : Nat := size - t.left

/-- The place behind the characters that the lexeme takes up. -/
def stop (size : Nat) (t : Lexeme) : Nat := size - t.rest.length

/-- Whether the character at a place is one of those that the lexeme takes up. -/
def covers (size place : Nat) (t : Lexeme) : Bool :=
  decide (t.position size ≤ place ∧ place < t.stop size)

theorem covers_iff {size place : Nat} {t : Lexeme} :
    t.covers size place ↔ size - t.start.length ≤ place ∧ place < size - t.rest.length :=
  decide_eq_true_iff

/-- A lexeme covers the characters that it takes. -/
theorem covers_taken_iff {token : Token} {taken rest : List Char} {front place : Nat} :
    covers (front + taken.length + rest.length) place ⟨token, taken ++ rest, rest⟩ ↔
      front ≤ place ∧ place < front + taken.length := by
  rw [covers_iff]
  simp only [List.length_append]
  omega

end Lexeme

namespace Tiling

variable {text last : List Char} {run : List Lexeme}

theorem pairwise_position (h : Tiling text run last) {size : Nat} (hsize : text.length ≤ size) :
    (run.map (Lexeme.position size)).Pairwise (· < ·) := by
  induction h with
  | nil => exact .nil
  | eof => exact List.pairwise_singleton _ _
  | @cons gap taken rest last token run _ _ htaken htile ih =>
      have hpos := List.length_pos_iff.mpr htaken
      simp only [List.length_append] at hsize
      refine List.pairwise_cons.mpr ⟨?_, ih (by omega)⟩
      refine List.forall_mem_map.mpr fun t ht => ?_
      have hstart := (htile.length_le_of_mem t ht).2
      simp only [Lexeme.position, Lexeme.left, List.length_append]
      omega

/-- What stands in front of the text belongs to no lexeme of it. -/
theorem countP_covers_eq_zero (h : Tiling text run last) {size place : Nat}
    (hplace : place + text.length < size) : run.countP (Lexeme.covers size place) = 0 := by
  refine List.countP_eq_zero.mpr fun t ht => ?_
  have hstart := (h.length_le_of_mem t ht).2
  rw [Lexeme.covers_iff]
  omega

/-- Places are counted from the beginning of the text, however much stands in front of it. -/
theorem countP_covers_add (h : Tiling text run last) (front place : Nat) :
    run.countP (Lexeme.covers (front + text.length) (front + place)) =
      run.countP (Lexeme.covers text.length place) := by
  refine List.countP_congr fun t ht => ?_
  obtain ⟨hrest, hstart⟩ := h.length_le_of_mem t ht
  rw [Lexeme.covers_iff, Lexeme.covers_iff]
  omega

/-- Each character in front of `last` is a blank between lexemes or belongs to one of them. -/
theorem isBlank_or_countP_covers_eq_one (h : Tiling text run last) {place : Nat} {c : Char}
    (hc : text[place]? = some c) (hplace : place + last.length < text.length) :
    (isBlank c = true ∧ run.countP (Lexeme.covers text.length place) = 0) ∨
      run.countP (Lexeme.covers text.length place) = 1 := by
  induction h generalizing place with
  | nil => omega
  | @eof gap hgap =>
      have hnone : Tiling [] [⟨.eof, [], []⟩] [] := .eof (List.forall_mem_nil _)
      exact .inl ⟨hgap c (List.mem_of_getElem? hc), hnone.countP_covers_eq_zero hplace⟩
  | @cons gap taken rest last token run hgap heof htaken htile ih =>
      have hsize : (gap ++ (taken ++ rest)).length = gap.length + taken.length + rest.length := by
        simp [Nat.add_assoc]
      rw [hsize] at hplace ⊢
      rcases Nat.lt_or_ge place gap.length with hgapped | hgapped
      · -- The place is in the blanks.
        rw [List.getElem?_append_left hgapped] at hc
        have hinner : Tiling (taken ++ rest) (⟨token, taken ++ rest, rest⟩ :: run) last :=
          @Tiling.cons [] taken rest last token run (List.forall_mem_nil _) heof htaken htile
        refine .inl ⟨hgap c (List.mem_of_getElem? hc), hinner.countP_covers_eq_zero ?_⟩
        simp only [List.length_append]
        omega
      rcases Nat.lt_or_ge place (gap.length + taken.length) with htook | htook
      · -- The place is in the first lexeme.
        refine .inr ?_
        rw [List.countP_cons_of_pos (Lexeme.covers_taken_iff.mpr ⟨hgapped, htook⟩),
          htile.countP_covers_eq_zero (by omega)]
      · obtain ⟨place, rfl⟩ := Nat.exists_eq_add_of_le htook
        have hbehind : rest[place]? = some c := by
          rw [← List.append_assoc, List.getElem?_append_right (by simp)] at hc
          simpa using hc
        rw [List.countP_cons_of_neg (by simp [Lexeme.covers_taken_iff]), htile.countP_covers_add]
        exact ih hbehind (by omega)

theorem eq_of_token_eq_eof (h : Tiling text run last) :
    ∀ t ∈ run, t.token = .eof → t = ⟨.eof, [], []⟩ := by
  induction h with
  | nil => exact List.forall_mem_nil _
  | eof => exact List.forall_mem_singleton.mpr fun _ => rfl
  | cons _ heof _ _ ih => exact List.forall_mem_cons.mpr ⟨fun h => absurd h heof, ih⟩

end Tiling

/-! ## All readings of a text -/

/-- A reading is at the end of its text or takes a character of it, unless the text opens a
verbatim body that is not closed: then it fails. So whatever flags a text is read under, the end
or a fault comes at the latest with one reading more than there are characters. Each lexeme starts
behind the one before it with only blanks between them, so that every other character belongs to
exactly one lexeme. -/
theorem next_consumes_and_lexemesUnder_cover :
    (∀ inside text,
      (∃ t, Lexeme.next inside text = .ok t ∧ (t.token = .eof ∨ t.rest.length < text.length) ∧
        ¬(inside = false ∧ OpensUnclosed text)) ∨
      (Lexeme.next inside text = .error (.unexpectedEnd .closingVerbatim) ∧ inside = false ∧
        OpensUnclosed text)) ∧
    ∀ flags text, ∃ run fault last, lexemesUnder flags text = (run, fault) ∧
      Tiling text run last ∧
      ((fault = none ∧ last = [] ∧ run.length ≤ text.length + 1 ∧
          ∃ front, run = front ++ [⟨.eof, [], []⟩]) ∨
        (fault = some (.unexpectedEnd .closingVerbatim) ∧ run.length < text.length ∧
          flags[run.length]? = some false ∧ OpensUnclosed last) ∨
        (fault = none ∧ run.length = flags.length ∧ flags.length ≤ text.length)) ∧
      (run.map (Lexeme.position text.length)).Pairwise (· < ·) ∧
      (∀ t ∈ run, t.token = .eof → t.position text.length = text.length) ∧
      ∀ place c, text[place]? = some c → place + last.length < text.length →
        (isBlank c = true ∧ run.countP (Lexeme.covers text.length place) = 0) ∨
          run.countP (Lexeme.covers text.length place) = 1 := by
  refine ⟨fun inside text => ?_, fun flags text => ?_⟩
  · cases hnext : Lexeme.next inside text with
    | error fault =>
        obtain ⟨rfl, hopens⟩ := Lexeme.next_eq_error_iff.mp hnext
        exact .inr ⟨rfl, hopens⟩
    | ok t =>
        refine .inl ⟨t, rfl, ?_, fun hopens => ?_⟩
        · rw [or_iff_not_imp_left]
          exact Lexeme.length_lt_of_next hnext
        · cases hnext.symm.trans (Lexeme.next_eq_error_iff.mpr ⟨rfl, hopens⟩)
  · obtain ⟨run, fault, last, hrun, htiling, hend⟩ := exists_tiling_lexemesUnder flags text
    refine ⟨run, fault, last, hrun, htiling, ?_, htiling.pairwise_position le_rfl, ?_, ?_⟩
    · have hlength := htiling.length_add_le
      rcases hend with ⟨hfault, hlast, hfront⟩ | ⟨hfault, hflag, hopens⟩ | ⟨hfault, hflags, hne⟩
      · exact .inl ⟨hfault, hlast, by omega, hfront⟩
      · have htwo := hopens.two_le_length
        exact .inr (.inl ⟨hfault, by omega, hflag, hopens⟩)
      · have hle := htiling.length_add_le_of_ne_eof hne
        exact .inr (.inr ⟨hfault, hflags, by omega⟩)
    · intro t ht heof
      rw [htiling.eq_of_token_eq_eof t ht heof]
      rfl
    · intro place c hc hplace
      exact htiling.isBlank_or_countP_covers_eq_one hc hplace

/-- An escaped bracket does not close a body, an escaped blank belongs to a name, and `[[` is read
as two brackets under the flags that say so. -/
theorem lexemesUnder_cover_around_escapes :
    let text := ['[', '[', 'a', '\\', ']', ']', ']', ' ', 'b', '\\', ' ', '[', '[']
    let flags := [false, false, true, true] ++ List.replicate 10 false
    let run : List Lexeme := [⟨.verbatim "a]", text, text.drop 7⟩,
      ⟨.name "b ", text.drop 8, text.drop 11⟩, ⟨.mark .bracketL, text.drop 11, text.drop 12⟩,
      ⟨.mark .bracketL, text.drop 12, []⟩, ⟨.eof, [], []⟩]
    lexemesUnder flags text = (run, none) ∧ Tiling text run [] ∧
      run.map (Lexeme.position text.length) = [0, 8, 11, 12, 13] ∧
      text[9]? = some '\\' ∧ run.countP (Lexeme.covers text.length 9) = 1 := by
  intro text flags run
  have hvalue : lexemesUnder flags text = (run, none) := by decide +kernel
  obtain ⟨run', fault, last, hrun, htiling, hend, -, -, hcover⟩ :=
    next_consumes_and_lexemesUnder_cover.2 flags text
  rw [hvalue] at hrun
  cases hrun
  rcases hend with ⟨-, rfl, -⟩ | ⟨hfault, -⟩ | ⟨-, hflags, -⟩
  · refine ⟨hvalue, htiling, rfl, rfl, ?_⟩
    exact (hcover 9 '\\' rfl (by decide)).resolve_left fun h => absurd h.1 (by decide)
  · cases hfault
  · cases hflags

/-- The readings that `lexemes` allows are enough to come to the end of the text or to a fault. -/
theorem lexemes_end_or_fail (inside : Bool) (text : List Char) :
    (∃ front, lexemes inside text = (front ++ [⟨.eof, [], []⟩], none)) ∨
      (∃ run, lexemes inside text = (run, some (.unexpectedEnd .closingVerbatim)) ∧
        inside = false) := by
  obtain ⟨run, fault, last, hrun, htiling, hend⟩ :=
    exists_tiling_lexemesUnder (List.replicate (text.length + 1) inside) text
  rw [lexemes, hrun]
  rcases hend with ⟨rfl, -, front, rfl⟩ | ⟨rfl, hflag, -⟩ | ⟨-, hlength, hne⟩
  · exact .inl ⟨front, rfl⟩
  · exact .inr ⟨run, rfl, (List.eq_of_mem_replicate (List.mem_of_getElem? hflag)).symm⟩
  · have hle := htiling.length_add_le_of_ne_eof hne
    rw [hlength, List.length_replicate] at hle
    omega

end DocPath
