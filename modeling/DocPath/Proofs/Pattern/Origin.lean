import DocPath.Proofs.Pattern.Source

/-! # Where segments are read

Each segment of a literal pattern is read from a lexeme somewhere in its text. So it has blanks
only if the text has, and no key is longer than the text that it is read from. -/

namespace DocPath

/-! ## What is read is part of the text -/

theorem readName_sublist (text : List Char) :
    ((readName text).1 ++ (readName text).2).Sublist text := by
  fun_induction readName text with
  | case1 => exact List.Sublist.refl _
  | case2 => exact List.nil_sublist _
  | case3 kept text ih => exact (ih.cons_cons kept).cons _
  | case4 => exact List.Sublist.refl _
  | case5 c text _ _ ih => exact ih.cons_cons c

theorem readVerbatim_sublist {text body rest : List Char}
    (h : readVerbatim text = some (body, rest)) :
    (body ++ ']' :: ']' :: rest).Sublist text := by
  fun_induction readVerbatim text generalizing body with
  | case1 | case2 => cases h
  | case3 c d text hclose =>
      obtain ⟨rfl, rfl⟩ := hclose
      cases h
      exact List.Sublist.refl _
  | case4 c d text _ _ ih =>
      obtain ⟨_, hread, heq⟩ := Option.map_eq_some_iff.mp h
      cases heq
      exact ((ih hread).cons_cons d).cons c
  | case5 c d text _ _ ih =>
      obtain ⟨_, hread, heq⟩ := Option.map_eq_some_iff.mp h
      cases heq
      exact (ih hread).cons_cons c

theorem readName_suffix (text : List Char) : (readName text).2 <:+ text := by
  fun_induction readName text with
  | case1 => exact List.suffix_refl _
  | case2 => exact List.nil_suffix
  | case3 kept text ih => exact (ih.trans (List.suffix_cons kept text)).trans (List.suffix_cons ..)
  | case4 => exact List.suffix_refl _
  | case5 c text _ _ ih => exact ih.trans (List.suffix_cons c text)

theorem readVerbatim_suffix {text body rest : List Char}
    (h : readVerbatim text = some (body, rest)) : rest <:+ text := by
  fun_induction readVerbatim text generalizing body with
  | case1 | case2 => cases h
  | case3 c d text _ =>
      cases h
      exact (List.suffix_cons ..).trans (List.suffix_cons ..)
  | case4 c d text _ _ ih =>
      obtain ⟨_, hread, heq⟩ := Option.map_eq_some_iff.mp h
      cases heq
      exact ((ih hread).trans (List.suffix_cons d text)).trans (List.suffix_cons c _)
  | case5 c d text _ _ ih =>
      obtain ⟨_, hread, heq⟩ := Option.map_eq_some_iff.mp h
      cases heq
      exact (ih hread).trans (List.suffix_cons c _)

namespace Lexeme

variable {inside : Bool} {text : List Char} {t : Lexeme}

theorem start_eq_of_next (h : next inside text = .ok t) : t.start = text.dropWhile isBlank := by
  cases next_eq_ok_iff.mp h with
  | eof hs | name hs | verbatim _ hs | mark hs => exact hs.symm

theorem rest_suffix_of_next (h : next inside text = .ok t) : t.rest <:+ t.start := by
  cases next_eq_ok_iff.mp h with
  | eof _ => exact List.suffix_refl _
  | @name c rest _ _ _ _ hr =>
      have hread := readName_suffix (c :: rest)
      rwa [hr] at hread
  | verbatim _ _ hv =>
      exact (readVerbatim_suffix hv).trans ((List.suffix_cons ..).trans (List.suffix_cons ..))
  | mark _ _ => exact List.suffix_cons ..

theorem suffix_of_next (h : next inside text = .ok t) : t.rest <:+ text :=
  (rest_suffix_of_next h).trans (start_eq_of_next h ▸ List.dropWhile_suffix _)

theorem sublist_of_next (h : next inside text = .ok t) :
    t.rest.Sublist t.start ∧ t.start.Sublist text := by
  refine ⟨(rest_suffix_of_next h).sublist, ?_⟩
  rw [start_eq_of_next h]
  exact (List.dropWhile_suffix _).sublist

theorem rest_sublist_of_next (h : next inside text = .ok t) : t.rest.Sublist text :=
  (suffix_of_next h).sublist

/-- Every token but the end takes up a character. -/
theorem length_rest_lt_of_next (h : next inside text = .ok t) (hne : t.token ≠ .eof) :
    t.rest.length < t.start.length := by
  cases next_eq_ok_iff.mp h with
  | eof _ => exact absurd rfl hne
  | @name c rest _ _ hs hm hr =>
      -- A name begins with an escape or with a character that does not end it.
      have hblank := isBlank_of_dropWhile_eq_cons hs
      have hrest : (readName (c :: rest)).2.length < (c :: rest).length := by
        rw [readName.eq_def]
        dsimp only
        split
        · cases rest with
          | nil => exact Nat.zero_lt_one
          | cons kept rest =>
              have hlength := (readName_suffix rest).length_le
              simp only [List.length_cons]
              omega
        · have hlength := (readName_suffix rest).length_le
          rw [if_neg (by simp [hblank, isReserved, hm])]
          simp only [List.length_cons]
          omega
      rwa [hr] at hrest
  | verbatim _ _ hv =>
      have hlength := (readVerbatim_suffix hv).length_le
      simp only [List.length_cons]
      omega
  | mark _ _ => exact Nat.lt_succ_self _

theorem length_lt_of_next {token : Token} {start rest : List Char}
    (h : next inside text = .ok ⟨token, start, rest⟩) (hne : token ≠ .eof) :
    rest.length < text.length :=
  Nat.lt_of_lt_of_le (length_rest_lt_of_next h hne) (sublist_of_next h).2.length_le

end Lexeme

/-! ## Lexemes of segments -/

/-- The segment is read from a lexeme of the text. -/
inductive Segment.ReadIn (text : List Char) : Segment → Prop where
  | name {start rest : List Char} {name : String} : start.Sublist text →
      readName start = (name.toList, rest) → ReadIn text (.key (.ofName name))
  | verbatim {inner body rest : List Char} : ('[' :: '[' :: inner).Sublist text →
      readVerbatim inner = some (body, rest) →
      ReadIn text (.key (.name (stripBlanks (String.ofList body))))
  | destructor {fuel : Nat} {m : Mark} {start inner rest : List Char} {d : Destructor} :
      Lexeme.next false start = .ok ⟨.mark m, start, inner⟩ → start.Sublist text →
      Pattern.destructor fuel ⟨.mark m, start, inner⟩ m = .ok (d, rest) →
      ReadIn text (.destructor d)

theorem Segment.ReadIn.mono {text more : List Char} {segment : Segment}
    (h : segment.ReadIn text) (hmore : text.Sublist more) : segment.ReadIn more := by
  cases h with
  | name hs hr => exact .name (hs.trans hmore) hr
  | verbatim hs hv => exact .verbatim (hs.trans hmore) hv
  | destructor ht hs hd => exact .destructor ht (hs.trans hmore) hd

theorem Segment.readIn_of_next_name {inside : Bool} {text start rest : List Char} {name : String}
    (h : Lexeme.next inside text = .ok ⟨.name name, start, rest⟩) :
    Segment.ReadIn text (.key (.ofName name)) := by
  have hstart := (Lexeme.sublist_of_next h).2
  cases Lexeme.next_eq_ok_iff.mp h with
  | name _ _ hr => exact .name hstart (by simpa using hr)

theorem Segment.readIn_of_next_verbatim {inside : Bool} {text start rest : List Char}
    {body : String} (h : Lexeme.next inside text = .ok ⟨.verbatim body, start, rest⟩) :
    Segment.ReadIn text (.key (.name (stripBlanks body))) := by
  have hstart := (Lexeme.sublist_of_next h).2
  cases Lexeme.next_eq_ok_iff.mp h with
  | verbatim _ _ hv => exact .verbatim hstart hv

theorem Segment.readIn_of_destructor {fuel : Nat} {m : Mark} {text start inner rest : List Char}
    {d : Destructor} (h : Lexeme.next false text = .ok ⟨.mark m, start, inner⟩)
    (hd : Pattern.destructor fuel ⟨.mark m, start, inner⟩ m = .ok (d, rest)) :
    Segment.ReadIn text (.destructor d) := by
  have hstart := (Lexeme.sublist_of_next h).2
  cases Lexeme.next_eq_ok_iff.mp h with
  | mark _ hopen => exact .destructor (next_mark hopen) hstart hd

namespace Pattern

theorem accept_sublist {m : Mark} {text rest : List Char} {b : Bool}
    (h : accept m text = .ok (b, rest)) : rest.Sublist text := by
  cases accept_eq_ok_iff.mp h with
  | present ht => exact Lexeme.rest_sublist_of_next ht
  | absent => exact List.Sublist.refl _

theorem expect_sublist {inside : Bool} {m : Mark} {expected : Expected} {text rest : List Char}
    (h : expect inside m expected text = .ok rest) : rest.Sublist text := by
  obtain ⟨start, ht⟩ := expect_eq_ok_iff.mp h
  exact Lexeme.rest_sublist_of_next ht

theorem indices_readIn {fuel : Nat} {text rest : List Char} {all : List String}
    (h : indices fuel text = .ok (all, rest)) :
    rest.Sublist text ∧ ∀ index ∈ all, Segment.ReadIn text (.key (.ofName index)) := by
  induction fuel generalizing text all with
  | zero =>
      cases h
      exact ⟨List.Sublist.refl _, List.forall_mem_nil _⟩
  | succ fuel ih =>
      cases indices_succ_eq_ok_iff.mp h with
      | none _ _ => exact ⟨List.Sublist.refl _, List.forall_mem_nil _⟩
      | more ht hu _ he ho =>
          obtain ⟨hrest, hothers⟩ := ih ho
          have hinner := Lexeme.rest_sublist_of_next ht
          have hafter := (expect_sublist he).trans ((Lexeme.rest_sublist_of_next hu).trans hinner)
          refine ⟨hrest.trans hafter, List.forall_mem_cons.mpr ⟨?_, ?_⟩⟩
          · exact (Segment.readIn_of_next_name hu).mono hinner
          · intro index hi
            exact (hothers index hi).mono hafter

theorem filterMap_nameSteps (bracketed : Bool) (text : String) (more : List String)
    (expand : Bool) :
    (nameSteps bracketed text more expand).filterMap Step.segment? =
      (text :: more).map fun name => .key (.ofName name) := by
  induction more generalizing bracketed text with
  | nil => rfl
  | cons index more ih => exact congrArg (List.cons _) (ih true index)

theorem isOperator_of_wildcard {fuel : Nat} {text rest : List Char} {step : Step}
    (h : wildcard fuel text = .ok (step, rest)) : step.isOperator = true := by
  cases fuel with
  | zero => cases h
  | succ fuel =>
      cases wildcard_succ_eq_ok_iff.mp h with
      | group | range | any => rfl

/-- The segments of a literal chain are read in its text. -/
theorem chain_readIn (fuel : Nat) :
    (∀ {text rest steps}, chain fuel text = .ok (steps, rest) →
      (∀ step ∈ steps, step.isOperator = false) →
      ∀ segment ∈ steps.filterMap Step.segment?, segment.ReadIn text) ∧
    (∀ {text rest steps}, link fuel text = .ok (steps, rest) →
      (∀ step ∈ steps, step.isOperator = false) →
      ∀ segment ∈ steps.filterMap Step.segment?, segment.ReadIn text) := by
  induction fuel with
  | zero =>
      refine ⟨?_, ?_⟩
      all_goals
        intro text rest steps h
        cases h
  | succ fuel ih =>
      obtain ⟨ihChain, ihLink⟩ := ih
      refine ⟨?_, ?_⟩
      · intro text rest steps h hplain
        cases chain_succ_eq_ok_iff.mp h with
        | name ht _ hi ha hl =>
            have hinner := Lexeme.rest_sublist_of_next ht
            obtain ⟨hafter, hindices⟩ := indices_readIn hi
            have hlink := ihLink hl fun step hs => hplain step (List.mem_append_right _ hs)
            rw [List.filterMap_append, filterMap_nameSteps, List.map_cons, List.cons_append]
            refine List.forall_mem_cons.mpr ⟨Segment.readIn_of_next_name ht, ?_⟩
            refine List.forall_mem_append.mpr ⟨?_, ?_⟩
            · refine List.forall_mem_map.mpr fun index hmem => ?_
              exact (hindices index hmem).mono hinner
            · intro segment hmem
              exact (hlink segment hmem).mono ((accept_sublist ha).trans (hafter.trans hinner))
        | verbatim ht hl =>
            have hlink := ihLink hl fun step hs => hplain step (List.mem_cons_of_mem _ hs)
            simp only [List.filterMap_cons, Step.segment?]
            refine List.forall_mem_cons.mpr ⟨Segment.readIn_of_next_verbatim ht, ?_⟩
            intro segment hmem
            exact (hlink segment hmem).mono (Lexeme.rest_sublist_of_next ht)
        | wildcard _ hw _ =>
            have hliteral := hplain _ List.mem_cons_self
            rw [isOperator_of_wildcard hw] at hliteral
            cases hliteral
        | destructor ht _ hd =>
            simpa [Step.segment?] using Segment.readIn_of_destructor ht hd
      · intro text rest steps h hplain
        cases link_succ_eq_ok_iff.mp h with
        | none _ => exact List.forall_mem_nil _
        | some ha hc =>
            intro segment hmem
            exact (ihChain hc hplain segment hmem).mono (accept_sublist ha)

end Pattern

theorem Chain.readIn_of_parse {text : String} {chain : Chain}
    (h : Chain.parse text = .ok chain) :
    ∀ segment ∈ chain.segments, segment.ReadIn text.toList := by
  cases hmatch : chain.isMatch with
  | true => simp [Chain.segments, hmatch]
  | false =>
      rw [Chain.segments_of_not_isMatch hmatch]
      cases Chain.parse_eq_ok_iff.mp h with
      | blank _ _ => exact List.forall_mem_nil _
      | steps _ _ hc _ _ =>
          exact (Pattern.chain_readIn _).1 hc (Chain.not_isMatch_iff.mp hmatch)

/-! ## Segments from texts without blanks -/

/-- No blank holds the segment together: its names have none, and none comes between two brackets
that an expression begins with. -/
def Segment.Tight : Segment → Prop
  | .key (.name text) => stripBlanks text = text
  | .key (.index _) => True
  | .destructor d => d.Unspaced ∧ ¬ ['[', '['] <+: d.source.toList

instance (segment : Segment) : Decidable segment.Tight :=
  match segment with
  | .key (.name text) => inferInstanceAs (Decidable (stripBlanks text = text))
  | .key (.index _) => inferInstanceAs (Decidable True)
  | .destructor d =>
      inferInstanceAs (Decidable (d.Unspaced ∧ ¬ ['[', '['] <+: d.source.toList))

theorem stripBlanks_of_word? {name : String} {n : Nat}
    (h : Numeral.word? name.toList = some n) : stripBlanks name = name := by
  obtain ⟨-, hdigits, -⟩ := Numeral.word?_eq_some_iff.mp h
  exact stripBlanks_of_plain fun c hc => isPlain_of_isDigit (hdigits c hc)

theorem Segment.tight_ofName_iff {name : String} :
    Segment.Tight (.key (.ofName name)) ↔ stripBlanks name = name := by
  unfold Key.ofName
  split
  · rename_i hword
    exact iff_of_true trivial (stripBlanks_of_word? hword)
  · exact Iff.rfl

theorem Segment.ReadIn.tight {text : List Char} {segment : Segment} (h : segment.ReadIn text)
    (hb : Bare text) : segment.Tight := by
  cases h with
  | name hs hr =>
      have hname := (Pattern.bare_readName fun c hc => hb c (hs.subset hc)).1
      rw [hr] at hname
      exact Segment.tight_ofName_iff.mpr (bare_toList_iff.mp hname)
  | verbatim _ _ => exact stripBlanks_stripBlanks _
  | @destructor fuel m start inner rest d ht hs hd =>
      obtain ⟨htemplate, -, hsource⟩ := Pattern.destructor_eq_ok_iff.mp hd
      have hstart : Bare start := fun c hc => hb c (hs.subset hc)
      refine ⟨Pattern.template_bare htemplate fun c hc => ?_, ?_⟩
      · exact hstart c ((Lexeme.sublist_of_next ht).1.subset hc)
      · have htaken : Bare (start.take (start.length - rest.length)) :=
          fun c hc => hstart c (List.mem_of_mem_take hc)
        rw [hsource, String.toList_ofList, bare_iff.mp htaken]
        intro hopen
        obtain ⟨after, hafter⟩ := hopen.trans (List.take_prefix ..)
        cases Lexeme.next_eq_ok_iff.mp ht with
        | mark _ hbracket =>
            obtain ⟨hchar, rfl⟩ := List.cons.inj hafter
            exact hbracket (Mark.char_injective hchar.symm) rfl rfl

/-! ## Lengths of keys -/

theorem length_stripBlanks_le (text : String) :
    (stripBlanks text).toList.length ≤ text.toList.length := by
  simpa [stripBlanks, withoutBlanks] using List.length_filter_le _ text.toList

theorem isPlain_of_readName_eq {text : List Char} (h : (readName text).1 = text) :
    ∀ c ∈ text, isPlain c = true := by
  fun_induction readName text with
  | case1 | case2 | case4 => simp_all
  | case3 kept text ih =>
      have hlength := (readName_sublist text).length_le
      have heq := congrArg List.length h
      simp only [List.length_append, List.length_cons] at hlength heq
      omega
  | case5 c text hc hstop ih =>
      refine List.forall_mem_cons.mpr ⟨?_, ih (List.cons.inj h).2⟩
      simpa [isPlain, hc] using hstop

theorem ofName_eq_name_iff {name text : String} :
    Key.ofName name = .name text ↔ name = text ∧ Numeral.word? text.toList = none := by
  unfold Key.ofName
  split
  · rename_i n hword
    refine iff_of_false (by simp) ?_
    rintro ⟨rfl, hnone⟩
    rw [hword] at hnone
    cases hnone
  · rename_i hword
    simp only [Key.name.injEq]
    exact ⟨fun h => ⟨h, h ▸ hword⟩, fun h => h.1⟩

/-- A name is no longer than its text, and shorter unless it is the whole text as it stands. -/
theorem Segment.ReadIn.length_le {text : List Char} {name : String}
    (h : Segment.ReadIn text (.key (.name name))) :
    name.toList.length ≤ text.length ∧ (name.toList.length = text.length →
      name.toList = text ∧ (∀ c ∈ text, isPlain c = true) ∧ Numeral.word? text = none) := by
  generalize hsegment : Segment.key (.name name) = segment at h
  cases h with
  | @name start rest raw hs hr =>
      obtain ⟨rfl, hword⟩ := ofName_eq_name_iff.mp (Segment.key.inj hsegment).symm
      have hread := readName_sublist start
      rw [hr] at hread
      have hname : raw.toList.Sublist start := (List.sublist_append_left ..).trans hread
      refine ⟨(hname.trans hs).length_le, fun hlength => ?_⟩
      obtain rfl := (hname.trans hs).eq_of_length hlength
      obtain rfl := hs.antisymm hname
      exact ⟨rfl, isPlain_of_readName_eq (by rw [hr]), hword⟩
  | @verbatim inner body _ hs hv =>
      cases hsegment
      have hbody := (readVerbatim_sublist hv).length_le
      have htext := hs.length_le
      have hstripped := length_stripBlanks_le (String.ofList body)
      rw [String.toList_ofList] at hstripped
      simp only [List.length_append, List.length_cons] at hbody htext
      exact ⟨by omega, fun _ => by omega⟩
  | destructor => cases hsegment

end DocPath
