import DocPath.Proofs.Pattern.Grammar
import DocPath.Proofs.Pattern.Printing

/-! # Single tokens read back

Each printed token is read as itself in front of what may follow it. -/

namespace DocPath

/-! ## Where a token ends -/

/-- The text is at its end, or goes on with one of these marks. -/
def StartsIn (marks : List Mark) (text : List Char) : Prop :=
  text = [] ∨ ∃ m ∈ marks, ∃ rest, text = m.char :: rest

theorem startsIn_cons {marks : List Mark} {m : Mark} (h : m ∈ marks) (rest : List Char) :
    StartsIn marks (m.char :: rest) := Or.inr ⟨m, h, rest, rfl⟩

theorem StartsIn.mono {marks more : List Mark} {text : List Char} (h : StartsIn marks text)
    (hm : marks ⊆ more) : StartsIn more text := by
  rcases h with rfl | ⟨m, hmem, rest, rfl⟩
  · exact Or.inl rfl
  · exact startsIn_cons (hm hmem) rest

theorem isBlank_char (m : Mark) : isBlank m.char = false := by
  cases m <;> decide

theorem isReserved_char (m : Mark) : isReserved m.char = true := by
  simp [isReserved, Mark.ofChar?_char]

theorem char_ne_backslash (m : Mark) : m.char ≠ '\\' := by
  cases m <;> decide

/-! ## Characters -/

theorem readName_of_startsIn {marks : List Mark} {text : List Char} (h : StartsIn marks text) :
    readName text = ([], text) := by
  rcases h with rfl | ⟨m, -, rest, rfl⟩
  · rfl
  · simp [readName_cons_of_ne (char_ne_backslash m), isReserved_char]

/-- The text is a way to write the name: any character may have a backslash in front, and what
would not be read as itself must have one. -/
inductive Spelling : List Char → List Char → Prop where
  | nil : Spelling [] []
  | plain {c : Char} {name text : List Char} : isPlain c = true → Spelling name text →
      Spelling (c :: name) (c :: text)
  | escaped {c : Char} {name text : List Char} : Spelling name text →
      Spelling (c :: name) ('\\' :: c :: text)

theorem spelling_of_plain {text : List Char} (h : ∀ c ∈ text, isPlain c = true) :
    Spelling text text := by
  induction text with
  | nil => exact .nil
  | cons c text ih =>
      obtain ⟨hc, htext⟩ := List.forall_mem_cons.mp h
      exact .plain hc (ih htext)

theorem spelling_flatMap_spellChar (name : List Char) : Spelling name (name.flatMap spellChar) := by
  induction name with
  | nil => exact .nil
  | cons c name ih =>
      rw [List.flatMap_cons, spellChar]
      by_cases hc : isPlain c = true
      · rw [if_pos hc]
        exact .plain hc ih
      · rw [if_neg hc]
        exact .escaped ih

theorem readName_of_spelling {marks : List Mark} {name text rest : List Char}
    (h : Spelling name text) (hr : StartsIn marks rest) :
    readName (text ++ rest) = (name, rest) := by
  induction h with
  | nil => exact readName_of_startsIn hr
  | plain hc _ ih =>
      simp only [isPlain, Bool.not_eq_true', Bool.or_eq_false_iff, beq_eq_false_iff_ne] at hc
      obtain ⟨⟨hb, hs⟩, hne⟩ := hc
      rw [List.cons_append, readName_cons_of_ne hne, ih]
      simp [hb, hs]
  | escaped _ ih => rw [List.cons_append, List.cons_append, readName_backslash, ih]

/-- What is left of a printed body starts with no bracket. -/
theorem head?_escapeBracket (body rest : List Char) :
    ∃ d text, body.flatMap escapeBracket ++ ' ' :: rest = d :: text ∧ d ≠ '[' ∧ d ≠ ']' := by
  cases body with
  | nil => exact ⟨' ', rest, rfl, by decide, by decide⟩
  | cons c body =>
      rw [List.flatMap_cons, escapeBracket]
      by_cases hc : c = '[' ∨ c = ']'
      · rw [if_pos hc]
        exact ⟨'\\', _, rfl, by decide, by decide⟩
      · rw [if_neg hc]
        obtain ⟨hopen, hclose⟩ := not_or.mp hc
        exact ⟨c, _, rfl, hopen, hclose⟩

theorem readVerbatim_escapeBracket (body rest : List Char) :
    readVerbatim (body.flatMap escapeBracket ++ ' ' :: ']' :: ']' :: rest) =
      some (body ++ [' '], rest) := by
  induction body with
  | nil => simp [readVerbatim]
  | cons c body ih =>
      rw [List.flatMap_cons, List.append_assoc, escapeBracket]
      by_cases hc : c = '[' ∨ c = ']'
      · rw [if_pos hc, List.cons_append, List.singleton_append, readVerbatim,
          if_neg (by simp), if_pos ⟨rfl, hc⟩, ih]
        rfl
      · obtain ⟨d, text, he, hopen, hclose⟩ := head?_escapeBracket body (']' :: ']' :: rest)
        rw [if_neg hc, List.singleton_append, he, readVerbatim, if_neg (by simp [hclose]),
          if_neg (by simp [hopen, hclose]), ← he, ih]
        rfl

/-! ## Lexemes -/

theorem dropWhile_char (m : Mark) (rest : List Char) :
    (m.char :: rest).dropWhile isBlank = m.char :: rest :=
  List.dropWhile_cons_of_neg (by simp [isBlank_char])

theorem next_mark {m : Mark} {inside : Bool} {rest : List Char}
    (h : m = .bracketL → inside = false → rest.head? ≠ some '[') :
    Lexeme.next inside (m.char :: rest) = .ok ⟨.mark m, m.char :: rest, rest⟩ :=
  Lexeme.next_eq_ok_iff.mpr (.mark (dropWhile_char m rest) h)

theorem next_mark_of_ne {m : Mark} (h : m ≠ .bracketL) (inside : Bool) (rest : List Char) :
    Lexeme.next inside (m.char :: rest) = .ok ⟨.mark m, m.char :: rest, rest⟩ :=
  next_mark fun hm => absurd hm h

theorem next_blank {c : Char} (h : isBlank c = true) (inside : Bool) (rest : List Char) :
    Lexeme.next inside (c :: rest) = Lexeme.next inside rest := by
  simp [Lexeme.next, h]

/-- Where nothing but these marks can follow, the next token is one of them or the end. -/
theorem next_of_startsIn {marks : List Mark} {text : List Char} (h : StartsIn marks text)
    (hb : Mark.bracketL ∉ marks) (inside : Bool) :
    ∃ t, Lexeme.next inside text = .ok t ∧ (∀ name, t.token ≠ .name name) ∧
      ∀ m, m ∉ marks → t.token ≠ .mark m := by
  rcases h with rfl | ⟨m, hm, rest, rfl⟩
  · exact ⟨⟨.eof, [], []⟩, rfl, by simp, by simp⟩
  · refine ⟨_, next_mark_of_ne (fun he => hb (he ▸ hm)) inside rest, by simp, ?_⟩
    intro m' hm' he
    cases he
    exact hm' hm

/-- A spelling begins like a name. -/
theorem Spelling.exists_head {name text : List Char} (h : Spelling name text) (hne : name ≠ []) :
    ∃ c rest, text = c :: rest ∧ isBlank c = false ∧ Mark.ofChar? c = none := by
  cases h with
  | nil => exact absurd rfl hne
  | plain hc _ =>
      simp only [isPlain, Bool.not_eq_true', Bool.or_eq_false_iff] at hc
      exact ⟨_, _, rfl, hc.1.1, by simpa [isReserved] using hc.1.2⟩
  | escaped _ => exact ⟨'\\', _, rfl, by decide, by decide⟩

theorem next_of_spelling {name : String} {text rest : List Char} (h : Spelling name.toList text)
    (hne : name ≠ "") {marks : List Mark} (hr : StartsIn marks rest) (inside : Bool) :
    Lexeme.next inside (text ++ rest) = .ok ⟨.name name, text ++ rest, rest⟩ := by
  obtain ⟨c, cs, hc, hb, hm⟩ := h.exists_head (by simpa using hne)
  have hread := readName_of_spelling h hr
  rw [hc, List.cons_append] at hread ⊢
  have hd : (c :: (cs ++ rest)).dropWhile isBlank = c :: (cs ++ rest) :=
    List.dropWhile_cons_of_neg (by simp [hb])
  have hrule : Lexeme.Rule inside (c :: (cs ++ rest)) ⟨.name _, _, rest⟩ := .name hd hm hread
  simpa using Lexeme.next_eq_ok_iff.mpr hrule

theorem head_spell {name : String} (h : name ≠ "") :
    ∃ c rest, spell name = c :: rest ∧ isBlank c = false ∧ Mark.ofChar? c = none :=
  (spelling_flatMap_spellChar name.toList).exists_head (by simpa using h)

theorem head?_spell_ne {name : String} (h : name ≠ "") (rest : List Char) :
    (spell name ++ rest).head? ≠ some '[' := by
  obtain ⟨c, cs, hc, -, hm⟩ := head_spell h
  rw [hc]
  intro he
  cases he
  cases hm

theorem next_spell {name : String} (hne : name ≠ "") {marks : List Mark} {rest : List Char}
    (h : StartsIn marks rest) (inside : Bool) :
    Lexeme.next inside (spell name ++ rest) = .ok ⟨.name name, spell name ++ rest, rest⟩ :=
  next_of_spelling (spelling_flatMap_spellChar name.toList) hne h inside

theorem next_printVerbatim (body : String) (rest : List Char) :
    ∃ start, Lexeme.next false (printVerbatim body ++ rest) =
      .ok ⟨.verbatim (String.ofList (body.toList ++ [' '])), start, rest⟩ := by
  have ht : printVerbatim body ++ rest =
      '[' :: '[' :: (body.toList.flatMap escapeBracket ++ ' ' :: ']' :: ']' :: rest) := by
    simp [printVerbatim]
  rw [ht]
  exact ⟨_, Lexeme.next_eq_ok_iff.mpr
    (.verbatim rfl (dropWhile_char .bracketL _) (readVerbatim_escapeBracket body.toList rest))⟩

theorem stripBlanks_append_blank (body : String) :
    stripBlanks (String.ofList (body.toList ++ [' '])) = stripBlanks body := by
  have hb : withoutBlanks [' '] = [] := by decide
  simp [stripBlanks, hb]

namespace Pattern

/-! ## Optional and expected tokens -/

theorem accept_present {m : Mark} (h : m ≠ .bracketL) (rest : List Char) :
    accept m (m.char :: rest) = .ok (true, rest) :=
  accept_eq_ok_iff.mpr (.present (next_mark_of_ne h false rest))

theorem accept_absent {marks : List Mark} {text : List Char} (h : StartsIn marks text)
    (hb : Mark.bracketL ∉ marks) {m : Mark} (hm : m ∉ marks) :
    accept m text = .ok (false, text) := by
  obtain ⟨t, ht, -, hne⟩ := next_of_startsIn h hb false
  apply accept_eq_ok_iff.mpr
  exact .absent ht (hne m hm)

theorem expect_bracketR (inside : Bool) (expected : Expected) (rest : List Char) :
    expect inside .bracketR expected (Mark.bracketR.char :: rest) = .ok rest :=
  expect_eq_ok_iff.mpr ⟨_, next_mark_of_ne (by decide) inside rest⟩

theorem toString_ne_empty (n : Int) : toString n ≠ "" := by
  intro h
  have hn := Numeral.integer?_toString n
  rw [h] at hn
  cases hn

theorem bound_print {b : Option Int}
    (hf : ∀ n, b = some n → -Numeral.signedLimit ≤ n ∧ n < Numeral.signedLimit)
    {marks : List Mark} {rest : List Char} (h : StartsIn marks rest)
    (hb : Mark.bracketL ∉ marks) : bound (printBound b ++ rest) = .ok (b, rest) := by
  cases b with
  | none =>
      obtain ⟨t, ht, hne, -⟩ := next_of_startsIn h hb false
      apply bound_eq_ok_iff.mpr
      exact .none ht hne
  | some n =>
      obtain ⟨hl, hu⟩ := hf n rfl
      apply bound_eq_ok_iff.mpr
      exact .some (next_spell (toString_ne_empty n) h false) (Numeral.signedWord?_toString hl hu)

theorem head?_printBound_ne (b : Option Int) (rest : List Char) :
    (printBound b ++ Mark.colon.char :: rest).head? ≠ some '[' := by
  cases b with
  | none => simp [printBound, Mark.char]
  | some n => exact head?_spell_ne (toString_ne_empty n) _

theorem range_print {bounds : Bounds} (hf : bounds.Fits) (rest : List Char) :
    range (printBound bounds.low ++ Mark.colon.char ::
      (printBound bounds.high ++ Mark.bracketR.char :: rest)) = .ok (bounds, rest) := by
  have hlow := bound_print (fun n hn => hf n (Or.inl hn))
    (startsIn_cons (List.mem_singleton_self Mark.colon)
      (printBound bounds.high ++ Mark.bracketR.char :: rest)) (by decide)
  have hhigh := bound_print (fun n hn => hf n (Or.inr hn))
    (startsIn_cons (List.mem_singleton_self Mark.bracketR) rest) (by decide)
  apply range_eq_ok_iff.mpr
  exact .span hlow (next_mark_of_ne (by decide) false _) hhigh (expect_bracketR _ _ _)

end Pattern

end DocPath
