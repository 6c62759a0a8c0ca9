import DocPath.Proofs.Pattern.Run
import DocPath.Proofs.Pattern.Spacing

/-! # Blanks between tokens

Blanks in front of a token leave the tokens of a run as they are, so a pattern that is spread out
stands for the same chain. -/

namespace DocPath

/-! ## Blanks put into a text -/

section

variable (blanks : List Char) (n : Nat)

/-- The text with blanks put in front of its last `n` characters. Shorter texts are left alone. -/
def widen : List Char → List Char
  | [] => if n = 0 then blanks else []
  | c :: rest => if n = rest.length + 1 then blanks ++ c :: rest else c :: widen rest

theorem widen_of_length_lt {text : List Char} (h : text.length < n) :
    widen blanks n text = text := by
  induction text with
  | nil => exact if_neg (Nat.ne_of_gt h)
  | cons c rest ih =>
      simp only [List.length_cons] at h
      rw [widen, if_neg (by omega), ih (by omega)]

theorem widen_append (front : List Char) {rest : List Char} (h : n ≤ rest.length) :
    widen blanks n (front ++ rest) = front ++ widen blanks n rest := by
  induction front with
  | nil => rfl
  | cons c front ih =>
      rw [List.cons_append, widen, if_neg (by simp only [List.length_append]; omega), ih,
        List.cons_append]

end

variable {blanks : List Char} {n : Nat}

theorem widen_length {text : List Char} (h : text ≠ []) :
    widen blanks text.length text = blanks ++ text := by
  cases text with
  | nil => exact absurd rfl h
  | cons c rest => exact if_pos rfl

theorem head?_widen (hblanks : ∀ c ∈ blanks, isBlank c = true) (hn : 0 < n) (text : List Char) :
    (widen blanks n text).head? = text.head? ∨
      ∃ c, (widen blanks n text).head? = some c ∧ isBlank c = true := by
  cases text with
  | nil => exact .inl (by rw [widen, if_neg hn.ne'])
  | cons c rest =>
      rw [widen]
      split
      · cases blanks with
        | nil => exact .inl rfl
        | cons b blanks => exact .inr ⟨b, rfl, hblanks b List.mem_cons_self⟩
      · exact .inl rfl

/-- Blanks put in front of a text or into blanks before it make blanks before it. -/
theorem exists_blanks_of_widen (hblanks : ∀ c ∈ blanks, isBlank c = true) (hn : 0 < n)
    {gap start : List Char} (hgap : ∀ c ∈ gap, isBlank c = true) (h : start.length ≤ n) :
    ∃ gap', (∀ c ∈ gap', isBlank c = true) ∧ widen blanks n (gap ++ start) = gap' ++ start := by
  induction gap with
  | nil =>
      rcases h.lt_or_eq with h | rfl
      · exact ⟨[], List.forall_mem_nil _, widen_of_length_lt _ _ h⟩
      · exact ⟨blanks, hblanks, widen_length (List.ne_nil_of_length_pos hn)⟩
  | cons c gap ih =>
      obtain ⟨hc, hgap⟩ := List.forall_mem_cons.mp hgap
      rw [List.cons_append, widen]
      split
      · refine ⟨blanks ++ c :: gap, ?_, by simp⟩
        exact List.forall_mem_append.mpr ⟨hblanks, List.forall_mem_cons.mpr ⟨hc, hgap⟩⟩
      · obtain ⟨gap', hgap', htext⟩ := ih hgap
        exact ⟨c :: gap', List.forall_mem_cons.mpr ⟨hc, hgap'⟩, congrArg (c :: ·) htext⟩

theorem withoutBlanks_widen (hblanks : ∀ c ∈ blanks, isBlank c = true) (text : List Char) :
    withoutBlanks (widen blanks n text) = withoutBlanks text := by
  have hnil := withoutBlanks_eq_nil_iff.mpr hblanks
  induction text with
  | nil =>
      rw [widen]
      split
      · exact hnil
      · rfl
  | cons c rest ih =>
      rw [widen]
      split
      · rw [withoutBlanks_append, hnil, List.nil_append]
      · rw [← List.singleton_append, withoutBlanks_append, ih, ← withoutBlanks_append]
        rfl

/-! ## Lexemes in front of blanks -/

/-- The text begins with a character that ends a name. -/
def EndsName (text : List Char) : Prop :=
  ∃ c, text.head? = some c ∧ c ≠ '\\' ∧ (isBlank c || isReserved c) = true

theorem EndsName.widen (hblanks : ∀ c ∈ blanks, isBlank c = true) (hn : 0 < n)
    {text : List Char} (h : EndsName text) : EndsName (widen blanks n text) := by
  obtain ⟨c, hhead, hc⟩ := h
  rcases head?_widen hblanks hn text with heq | ⟨b, hb, hblank⟩
  · exact ⟨c, heq.trans hhead, hc⟩
  · refine ⟨b, hb, ?_, by simp [hblank]⟩
    rintro rfl
    cases hblank

theorem readName_of_endsName {text : List Char} (h : EndsName text) :
    readName text = ([], text) := by
  obtain ⟨c, hhead, hc, hstop⟩ := h
  obtain ⟨rest, rfl⟩ := List.head?_eq_some_iff.mp hhead
  rw [readName_cons_of_ne hc, if_pos hstop]

/-- A name that ends before its text does is read alike wherever it is ended. -/
theorem exists_taken_of_readName {text name rest : List Char}
    (h : readName text = (name, rest)) (hrest : rest ≠ []) :
    EndsName rest ∧ ∃ taken, text = taken ++ rest ∧
      ∀ after, EndsName after → readName (taken ++ after) = (name, after) := by
  fun_induction readName text generalizing name with
  | case1 | case2 =>
      cases h
      exact absurd rfl hrest
  | case3 kept text ih =>
      obtain ⟨rfl, rfl⟩ := Prod.mk.inj h
      obtain ⟨hend, taken, htext, hread⟩ := ih rfl
      refine ⟨hend, '\\' :: kept :: taken, congrArg ('\\' :: kept :: ·) htext, ?_⟩
      intro after ha
      rw [List.cons_append, List.cons_append, readName_backslash, hread after ha]
  | case4 c text hc hstop =>
      obtain ⟨rfl, rfl⟩ := Prod.mk.inj h
      exact ⟨⟨c, rfl, hc, hstop⟩, [], rfl, fun after ha => readName_of_endsName ha⟩
  | case5 c text hc hstop ih =>
      obtain ⟨rfl, rfl⟩ := Prod.mk.inj h
      obtain ⟨hend, taken, htext, hread⟩ := ih rfl
      refine ⟨hend, c :: taken, congrArg (c :: ·) htext, ?_⟩
      intro after ha
      rw [List.cons_append, readName_cons_of_ne hc, if_neg hstop, hread after ha]

/-- A verbatim body is read alike whatever stands behind its closing brackets. -/
theorem exists_taken_of_readVerbatim {text body rest : List Char}
    (h : readVerbatim text = some (body, rest)) :
    ∃ taken, text = taken ++ rest ∧
      ∀ after, readVerbatim (taken ++ after) = some (body, after) := by
  fun_induction readVerbatim text generalizing body with
  | case1 | case2 => cases h
  | case3 c d text hclose =>
      cases h
      exact ⟨[c, d], rfl, fun after => by simp [readVerbatim, hclose]⟩
  | case4 c d text hclose hescape ih =>
      obtain ⟨read, hread, heq⟩ := Option.map_eq_some_iff.mp h
      cases heq
      obtain ⟨taken, htext, hafter⟩ := ih hread
      refine ⟨c :: d :: taken, congrArg (c :: d :: ·) htext, fun after => ?_⟩
      rw [List.cons_append, List.cons_append, readVerbatim_cons_cons, if_neg hclose,
        if_pos hescape, hafter]
      rfl
  | case5 c d text hclose hescape ih =>
      obtain ⟨read, hread, heq⟩ := Option.map_eq_some_iff.mp h
      cases heq
      obtain ⟨taken, htext, hafter⟩ := ih hread
      cases taken with
      | nil => cases hafter []
      | cons d' taken =>
          obtain ⟨rfl, rfl⟩ := List.cons.inj htext
          refine ⟨c :: d :: taken, rfl, fun after => ?_⟩
          rw [List.cons_append, List.cons_append, readVerbatim_cons_cons, if_neg hclose,
            if_neg hescape, ← List.cons_append, hafter]
          rfl

namespace Lexeme

theorem next_blanks {gap : List Char} (hgap : ∀ c ∈ gap, isBlank c = true) (inside : Bool)
    (text : List Char) : next inside (gap ++ text) = next inside text := by
  induction gap with
  | nil => rfl
  | cons c gap ih =>
      obtain ⟨hc, hgap⟩ := List.forall_mem_cons.mp hgap
      rw [List.cons_append, next_blank hc, ih hgap]

theorem exists_gap_of_next {inside : Bool} {text : List Char} {t : Lexeme}
    (h : next inside text = .ok t) :
    ∃ gap, text = gap ++ t.start ∧ (∀ c ∈ gap, isBlank c = true) ∧ next inside t.start = .ok t := by
  obtain ⟨gap, htext, hgap⟩ := exists_blanks text
  rw [← start_eq_of_next h] at htext
  have hblank := withoutBlanks_eq_nil_iff.mp hgap
  refine ⟨gap, htext, hblank, ?_⟩
  rw [htext, next_blanks hblank] at h
  exact h

/-- The last `n` characters of the text begin outside of the lexeme. -/
def Clear (n : Nat) (t : Lexeme) : Prop :=
  n ≤ t.rest.length ∨ t.start.length ≤ n

/-- Blanks behind a lexeme do not change it. -/
theorem next_widen_behind (hblanks : ∀ c ∈ blanks, isBlank c = true) (hn : 0 < n)
    {inside : Bool} {text : List Char} {t : Lexeme} (h : next inside text = .ok t)
    (hbehind : n ≤ t.rest.length) :
    ∃ start, next inside (widen blanks n text) = .ok ⟨t.token, start, widen blanks n t.rest⟩ := by
  obtain ⟨gap, rfl, hgap, hstart⟩ := exists_gap_of_next h
  rw [widen_append _ _ gap (hbehind.trans (rest_suffix_of_next h).length_le), next_blanks hgap]
  have hrest : t.rest ≠ [] := List.ne_nil_of_length_pos (Nat.lt_of_lt_of_le hn hbehind)
  have hdrop {c : Char} {rest : List Char} (hs : (c :: rest).dropWhile isBlank = c :: rest)
      (more : List Char) : (c :: more).dropWhile isBlank = c :: more :=
    List.dropWhile_cons_of_neg (by simp [isBlank_of_dropWhile_eq_cons hs])
  cases next_eq_ok_iff.mp hstart with
  | eof _ => exact absurd rfl hrest
  | @name c inner name after hs hm hr =>
      obtain ⟨hend, taken, htext, hread⟩ := exists_taken_of_readName hr hrest
      have hafter := hread _ (hend.widen hblanks hn)
      cases taken with
      | nil =>
          -- A name that takes up nothing would not have been read.
          have hlt := length_rest_lt_of_next hstart (by simp)
          dsimp only at htext hlt
          rw [htext] at hlt
          exact absurd hlt (lt_irrefl _)
      | cons c' taken =>
          obtain rfl := (List.cons.inj htext).1
          rw [htext, widen_append _ _ (c :: taken) hbehind]
          exact ⟨_, next_eq_ok_iff.mpr (.name (hdrop hs _) hm hafter)⟩
  | @verbatim inner body after hi hs hv =>
      obtain ⟨taken, rfl, hread⟩ := exists_taken_of_readVerbatim hv
      have htext : widen blanks n ('[' :: '[' :: (taken ++ after)) =
          '[' :: '[' :: (taken ++ widen blanks n after) :=
        widen_append blanks n ('[' :: '[' :: taken) hbehind
      rw [htext]
      exact ⟨_, next_eq_ok_iff.mpr (.verbatim hi (hdrop hs _) (hread _))⟩
  | @mark m after hs hopen =>
      have htext : widen blanks n (m.char :: after) = m.char :: widen blanks n after :=
        widen_append blanks n [m.char] hbehind
      rw [htext]
      refine ⟨_, next_eq_ok_iff.mpr (.mark (hdrop hs _) fun hm hi hhead => ?_)⟩
      rcases head?_widen hblanks hn after with heq | ⟨b, hb, hblank⟩
      · exact hopen hm hi (heq.symm.trans hhead)
      · cases hb.symm.trans hhead
        cases hblank

/-- Blanks put in anywhere else do not change it either. -/
theorem next_widen (hblanks : ∀ c ∈ blanks, isBlank c = true) (hn : 0 < n)
    {inside : Bool} {text : List Char} {t : Lexeme} (h : next inside text = .ok t)
    (hclear : t.Clear n) :
    ∃ start, next inside (widen blanks n text) = .ok ⟨t.token, start, widen blanks n t.rest⟩ := by
  rcases hclear with hbehind | hbefore
  · exact next_widen_behind hblanks hn h hbehind
  · obtain ⟨gap, rfl, hgap, hstart⟩ := exists_gap_of_next h
    obtain ⟨gap', hgap', htext⟩ := exists_blanks_of_widen hblanks hn hgap hbefore
    have hrest : widen blanks n t.rest = t.rest := by
      by_cases hne : t.token = .eof
      · cases next_eq_ok_iff.mp hstart with
        | eof _ => exact widen_of_length_lt _ _ hn
        | _ => cases hne
      · exact widen_of_length_lt _ _ ((length_rest_lt_of_next hstart hne).trans_le hbefore)
    rw [htext, next_blanks hgap', hrest]
    exact ⟨t.start, hstart⟩

end Lexeme

namespace Pattern

/-! ## Lexemes of a run -/

namespace Derivation

variable {phrases : List Phrase} {run : List Lexeme} {a b : Position}

theorem suffix_of_mem (h : Derivation phrases a run b) : ∀ t ∈ run,
    t.start <:+ a.text ∧ t.rest.length < t.start.length ∧ b.text <:+ t.rest := by
  induction h with
  | nil => exact List.forall_mem_nil _
  | token ht hne h ih =>
      refine List.forall_mem_cons.mpr ⟨?_, fun t hmem => ?_⟩
      · refine ⟨?_, Lexeme.length_rest_lt_of_next ht hne, h.suffix⟩
        rw [Lexeme.start_eq_of_next ht]
        exact List.dropWhile_suffix _
      · obtain ⟨hstart, hend⟩ := ih t hmem
        exact ⟨hstart.trans (Lexeme.suffix_of_next ht), hend⟩
  | ahead _ _ _ ih => exact ih
  | phrase _ hparts h ihParts ih | destructor hparts _ h ihParts ih =>
      refine List.forall_mem_append.mpr ⟨fun t hmem => ?_, fun t hmem => ?_⟩
      · obtain ⟨hstart, hlt, hrest⟩ := ihParts t hmem
        exact ⟨hstart, hlt, h.suffix.trans hrest⟩
      · obtain ⟨hstart, hend⟩ := ih t hmem
        exact ⟨hstart.trans hparts.suffix, hend⟩

/-- Each lexeme of a run begins where the one before it is over. -/
theorem pairwise (h : Derivation phrases a run b) :
    run.Pairwise fun t u => u.start.length ≤ t.rest.length := by
  induction h with
  | nil => exact .nil
  | token _ _ h ih =>
      exact .cons (fun u hu => (h.suffix_of_mem u hu).1.length_le) ih
  | ahead _ _ _ ih => exact ih
  | phrase _ hparts h ihParts ih | destructor hparts _ h ihParts ih =>
      refine List.pairwise_append.mpr ⟨ihParts, ih, fun t ht u hu => ?_⟩
      exact ((h.suffix_of_mem u hu).1.trans (hparts.suffix_of_mem t ht).2.2).length_le

theorem clear_of_mem (h : Derivation phrases a run b) {t u : Lexeme} (ht : t ∈ run)
    (hu : u ∈ run) : t.Clear u.start.length := by
  have hbehind : run.Pairwise fun t u => t.Clear u.start.length := h.pairwise.imp .inl
  have hbefore : run.Pairwise fun t u => u.Clear t.start.length :=
    h.pairwise.imp_of_mem fun ht _ hle => .inr (hle.trans (h.suffix_of_mem _ ht).2.1.le)
  have hself : ∀ t ∈ run, t.Clear t.start.length := fun t _ => .inr le_rfl
  exact List.Pairwise.forall_of_forall_of_flip (R := fun t u : Lexeme => t.Clear u.start.length)
    hself hbehind hbefore ht hu

/-! ## Derivations of widened texts -/

variable {n : Nat}

/-- The token that comes next is in the run, or it comes next behind it. -/
theorem mem_or_next (h : Derivation phrases a run b) {t : Lexeme}
    (ht : Lexeme.next a.inside a.text = .ok t) :
    t ∈ run ∨ Lexeme.next b.inside b.text = .ok t := by
  induction h with
  | nil => exact .inr ht
  | token hu _ _ _ =>
      obtain rfl := Except.ok.inj (hu.symm.trans ht)
      exact .inl List.mem_cons_self
  | ahead _ _ _ ih => exact ih ht
  | phrase _ _ _ ihParts ih | destructor _ _ _ ihParts ih =>
      rcases ihParts ht with hmem | hnext
      · exact .inl (List.mem_append_left _ hmem)
      · exact (ih hnext).imp_left (List.mem_append_right _)

variable {blanks : List Char}

theorem widen (hblanks : ∀ c ∈ blanks, isBlank c = true) (hn : 0 < n)
    (h : Derivation phrases a run b) (hrun : ∀ t ∈ run, t.Clear n)
    (hend : ∀ t, Lexeme.next b.inside b.text = .ok t → t.Clear n) :
    Derives phrases ⟨a.inside, DocPath.widen blanks n a.text⟩
      ⟨b.inside, DocPath.widen blanks n b.text⟩ := by
  induction h with
  | nil => exact .nil
  | token ht hne _ ih =>
      obtain ⟨hclear, hrest⟩ := List.forall_mem_cons.mp hrun
      obtain ⟨start, hnext⟩ := Lexeme.next_widen hblanks hn ht hclear
      exact .token hnext hne (ih hrest hend)
  | ahead ht hallowed h ih =>
      have hclear := (h.mem_or_next ht).elim (hrun _) (hend _)
      obtain ⟨start, hnext⟩ := Lexeme.next_widen hblanks hn ht hclear
      exact .cons (.ahead hnext hallowed) (ih hrun hend)
  | phrase hp hparts h ihParts ih =>
      obtain ⟨hrunParts, hrest⟩ := List.forall_mem_append.mp hrun
      have hwide := ihParts hrunParts fun t ht => (h.mem_or_next ht).elim (hrest t) (hend t)
      exact .cons (.phrase hp hwide) (ih hrest hend)
  | destructor hparts hsource h ihParts ih =>
      obtain ⟨hrunParts, hrest⟩ := List.forall_mem_append.mp hrun
      have hwide := ihParts hrunParts fun t ht => (h.mem_or_next ht).elim (hrest t) (hend t)
      refine .cons (.destructor hwide ?_) (ih hrest hend)
      rw [withoutBlanks_widen hblanks, withoutBlanks_widen hblanks, hsource]

end Derivation

end Pattern

namespace Chain

/-- Blanks in front of any token that the readers take leave the chain as it is, and with it its
segments, their rules and its classification. -/
theorem parse_of_blanks_before_token {text : String} {chain : Chain}
    (h : Chain.parse text = .ok chain) :
    (∃ run, Run text.toList run chain) ∧
      ∀ run, Run text.toList run chain → ∀ t ∈ run, ∃ before, text.toList = before ++ t.start ∧
        ∀ blanks, (∀ c ∈ blanks, isBlank c = true) →
          Chain.parse (String.ofList (before ++ (blanks ++ t.start))) = .ok chain := by
  refine ⟨parse_eq_ok_iff_exists_run.mp h, fun run hrun t ht => ?_⟩
  cases hrun with
  | blank => cases ht
  | @steps _ _ rest hrun hrest =>
      obtain ⟨⟨before, htext⟩, hlt, -⟩ := hrun.suffix_of_mem t ht
      refine ⟨before, htext.symm, fun blanks hblanks => parse_eq_ok_iff_exists_run.mpr ?_⟩
      have hstart : t.start ≠ [] := List.ne_nil_of_length_pos (Nat.zero_lt_of_lt hlt)
      have hpos : 0 < t.start.length := List.length_pos_iff.mpr hstart
      have hend : ∀ u, Lexeme.next false rest = .ok u → u.Clear t.start.length := by
        intro u hu
        have heof := List.dropWhile_eq_nil_iff.mpr hrest
        exact .inr (by simp [Lexeme.start_eq_of_next hu, heof])
      obtain ⟨run', hwide⟩ := hrun.widen hblanks hpos (fun u hu => hrun.clear_of_mem hu ht) hend
      have hblank : ∀ c ∈ widen blanks t.start.length rest, isBlank c = true := by
        rw [← withoutBlanks_eq_nil_iff, withoutBlanks_widen hblanks]
        exact withoutBlanks_eq_nil_iff.mpr hrest
      dsimp only at htext hwide
      rw [← htext, widen_append _ _ before le_rfl, widen_length hstart] at hwide
      rw [String.toList_ofList]
      exact ⟨run', .steps hwide hblank⟩

/-- The brackets that begin an expression stay apart, and its source does not keep the blanks. -/
theorem parse_of_blanks_before_inner_bracket :
    let d : Destructor := ⟨.array [.nested (.array [.name "y"])], "[[y]]"⟩
    let opening : Lexeme := ⟨.mark .bracketL, "[y]]".toList, "y]]".toList⟩
    Chain.parse "[ [y]]" = .ok [.destructor d] ∧
      (∃ run, Run "[ [y]]".toList run [.destructor d] ∧ opening ∈ run) ∧
      Chain.parse "[  \t[y]]" = .ok [.destructor d] := by
  intro d opening
  let start : Lexeme := ⟨.mark .bracketL, "[ [y]]".toList, " [y]]".toList⟩
  let name : Lexeme := ⟨.name "y", "y]]".toList, "]]".toList⟩
  let closing : Lexeme := ⟨.mark .bracketR, "]]".toList, "]".toList⟩
  let last : Lexeme := ⟨.mark .bracketR, "]".toList, []⟩
  have hparse : Chain.parse "[ [y]]" = .ok [.destructor d] := by decide +kernel
  have hname : Pattern.Derivation [.slot (.name "y")] ⟨true, name.start⟩ [name]
      ⟨true, name.rest⟩ :=
    .phrase (.slotName (by decide)) (.token (t := name) (by decide +kernel) (by decide) .nil) .nil
  have hslot : Pattern.Derivation [.slot (.nested (.array [.name "y"]))] ⟨true, start.rest⟩
      [opening, name, closing] ⟨true, closing.rest⟩ :=
    .phrase .slotArray (.token (t := opening) (by decide +kernel) (by decide) (.phrase .lastElement
      (hname.append (.token (t := closing) (by decide +kernel) (by decide) .nil)) .nil)) .nil
  have hphrases : Pattern.Derivation d.template.phrases ⟨false, start.start⟩
      [start, opening, name, closing, last] ⟨false, []⟩ :=
    .token (t := start) (by decide +kernel) (by decide) (.phrase .lastElement
      (hslot.append (.token (t := last) (by decide +kernel) (by decide) .nil)) .nil)
  have hrun : Run "[ [y]]".toList [start, opening, name, closing, last] [.destructor d] :=
    .steps (.phrase .destructor (.destructor hphrases (by decide +kernel)
      (.ahead (t := ⟨.eof, [], []⟩) rfl (by decide) .nil)) .nil) (List.forall_mem_nil _)
  have hmem : opening ∈ [start, opening, name, closing, last] := by simp
  obtain ⟨before, htext, hwide⟩ := (parse_of_blanks_before_token hparse).2 _ hrun opening hmem
  obtain rfl : "[ ".toList = before := List.append_cancel_right htext
  have hblanks := List.all_eq_true.mp (by decide : [' ', '\t'].all isBlank = true)
  exact ⟨hparse, ⟨_, hrun, hmem⟩, hwide [' ', '\t'] hblanks⟩

end Chain

end DocPath
