import DocPath.Proofs.Pattern.Origin
import DocPath.Proofs.Pattern.RoundTrip

/-! # Literal patterns without their blanks

Blanks between tokens make no difference. A literal pattern is read alike without them, unless a
blank belongs to a name, keeps two brackets apart or stands in a verbatim body where the body
would end or be escaped without it. -/

namespace DocPath

/-! ## Tokens -/

theorem readName_withoutBlanks {marks : List Mark} {text name rest : List Char}
    (h : readName text = (name, rest)) (hname : Bare name)
    (hrest : StartsIn marks (withoutBlanks rest)) :
    readName (withoutBlanks text) = (name, withoutBlanks rest) := by
  fun_induction readName text generalizing name with
  | case1 | case2 =>
      cases h
      rfl
  | case3 kept text ih =>
      obtain ⟨rfl, rfl⟩ := Prod.mk.inj h
      obtain ⟨hkept, hname⟩ := List.forall_mem_cons.mp hname
      rw [withoutBlanks_cons (by decide), withoutBlanks_cons hkept, readName_backslash,
        ih rfl hname]
  | case4 c text hc hstop =>
      obtain ⟨rfl, rfl⟩ := Prod.mk.inj h
      exact readName_of_startsIn hrest
  | case5 c text hc hstop ih =>
      obtain ⟨rfl, rfl⟩ := Prod.mk.inj h
      obtain ⟨hblank, hname⟩ := List.forall_mem_cons.mp hname
      rw [withoutBlanks_cons hblank, readName_cons_of_ne hc, if_neg hstop, ih rfl hname]

theorem next_name_withoutBlanks {marks : List Mark} {inside : Bool} {text start rest : List Char}
    {name : String} (h : Lexeme.next inside text = .ok ⟨.name name, start, rest⟩)
    (hname : stripBlanks name = name) (hrest : StartsIn marks (withoutBlanks rest)) :
    (∃ start', Lexeme.next inside (withoutBlanks text) =
      .ok ⟨.name name, start', withoutBlanks rest⟩) ∧ (withoutBlanks text).head? ≠ some '[' := by
  cases Lexeme.next_eq_ok_iff.mp h with
  | @name c _ name _ hs hm hr =>
      have hblank := isBlank_of_dropWhile_eq_cons hs
      have htext := withoutBlanks_dropWhile text
      have hread := readName_withoutBlanks hr (by simpa using bare_toList_iff.mpr hname) hrest
      rw [hs, withoutBlanks_cons hblank] at htext
      rw [withoutBlanks_cons hblank] at hread
      rw [← htext]
      refine ⟨⟨_, Lexeme.next_eq_ok_iff.mpr (.name ?_ hm hread)⟩, ?_⟩
      · exact List.dropWhile_cons_of_neg (by simp [hblank])
      · rintro ⟨⟩
        cases hm

theorem next_mark_withoutBlanks {inside : Bool} {text start rest : List Char} {m : Mark}
    (h : Lexeme.next inside text = .ok ⟨.mark m, start, rest⟩)
    (hopen : m = .bracketL → inside = false → (withoutBlanks rest).head? ≠ some '[') :
    withoutBlanks text = m.char :: withoutBlanks rest ∧
      Lexeme.next inside (withoutBlanks text) =
        .ok ⟨.mark m, m.char :: withoutBlanks rest, withoutBlanks rest⟩ := by
  obtain ⟨raw, rfl, hraw⟩ := exists_raw_of_next_mark h
  rw [withoutBlanks_append, hraw, List.singleton_append]
  exact ⟨rfl, next_mark hopen⟩

/-! ## Verbatim bodies -/

/-- The body at the beginning of the text ends at the same brackets when the blanks are taken
out, and is read as the same without them. -/
def ReadAlike (inner : List Char) : Prop :=
  readVerbatim (withoutBlanks inner) =
    (readVerbatim inner).map fun read => (withoutBlanks read.1, withoutBlanks read.2)

instance (inner : List Char) : Decidable (ReadAlike inner) :=
  inferInstanceAs (Decidable (_ = _))

theorem readVerbatim_cons_cons (c d : Char) (text : List Char) :
    readVerbatim (c :: d :: text) =
      if c = ']' ∧ d = ']' then some ([], text)
      else if c = '\\' ∧ (d = '[' ∨ d = ']') then
        (readVerbatim text).map fun r => (d :: r.1, r.2)
      else (readVerbatim (d :: text)).map fun r => (c :: r.1, r.2) := by
  rw [readVerbatim]

theorem next_opening (inner : List Char) :
    Lexeme.next false ('[' :: '[' :: inner) =
      match readVerbatim inner with
      | some (body, rest) =>
          .ok ⟨.verbatim (String.ofList body), '[' :: '[' :: inner, rest⟩
      | none => .error (.unexpectedEnd .closingVerbatim) :=
  rfl

/-- A body that is read as the same without blanks ends at the same brackets. -/
theorem readAlike_of_body {inner body rest body' rest' : List Char}
    (h : readVerbatim inner = some (body, rest))
    (h' : readVerbatim (withoutBlanks inner) = some (body', rest'))
    (hbody : body' = withoutBlanks body) : rest' = withoutBlanks rest := by
  fun_induction readVerbatim inner generalizing body body' with
  | case1 | case2 => cases h
  | case3 c d text hclose =>
      obtain ⟨rfl, rfl⟩ := hclose
      cases h
      rw [withoutBlanks_cons (by decide), withoutBlanks_cons (by decide),
        readVerbatim_cons_cons, if_pos ⟨rfl, rfl⟩] at h'
      cases h'
      rfl
  | case4 c d text _ hescape ih =>
      obtain ⟨rfl, hd⟩ := hescape
      obtain ⟨⟨inside, after⟩, hread, heq⟩ := Option.map_eq_some_iff.mp h
      cases heq
      have hblank : isBlank d = false := by
        rcases hd with rfl | rfl
        · decide
        · decide
      rw [withoutBlanks_cons (by decide), withoutBlanks_cons hblank, readVerbatim_cons_cons,
        if_neg (by simp), if_pos ⟨rfl, hd⟩] at h'
      obtain ⟨⟨inside', after'⟩, hread', heq'⟩ := Option.map_eq_some_iff.mp h'
      cases heq'
      rw [withoutBlanks_cons hblank] at hbody
      exact ih hread hread' (List.cons.inj hbody).2
  | case5 c d text hclose hescape ih =>
      obtain ⟨⟨inside, after⟩, hread, heq⟩ := Option.map_eq_some_iff.mp h
      cases heq
      cases hblank : isBlank c with
      | true =>
          rw [withoutBlanks_cons_of_blank hblank] at h' hbody
          exact ih hread h' hbody
      | false =>
          rw [withoutBlanks_cons hblank] at h' hbody
          -- Without the blanks another character may come to stand behind `c`.
          cases hmore : withoutBlanks (d :: text) with
          | nil =>
              rw [hmore] at h'
              cases h'
          | cons e more =>
              rw [hmore, readVerbatim_cons_cons] at h'
              split at h'
              · cases h'
                cases hbody
              · split at h'
                · rename_i hbracket
                  obtain ⟨⟨inside', after'⟩, hread', heq'⟩ := Option.map_eq_some_iff.mp h'
                  cases heq'
                  obtain rfl := (List.cons.inj hbody).1
                  obtain ⟨rfl, hd⟩ := hbracket
                  simp at hd
                · obtain ⟨⟨inside', after'⟩, hread', heq'⟩ := Option.map_eq_some_iff.mp h'
                  cases heq'
                  exact ih hread (hmore ▸ hread') (List.cons.inj hbody).2

namespace Pattern

mutual

/-- The texts behind the opening brackets of the verbatim segments of a chain. -/
def chainVerbatims : Nat → List Char → List (List Char)
  | 0, _ => []
  | fuel + 1, chars =>
      match Lexeme.next false chars with
      | .ok ⟨.name _, _, rest⟩ =>
          match indices fuel rest with
          | .ok (_, rest) => linkVerbatims fuel rest
          | .error _ => []
      | .ok ⟨.verbatim _, start, rest⟩ => start.drop 2 :: linkVerbatims fuel rest
      | _ => []

def linkVerbatims : Nat → List Char → List (List Char)
  | 0, _ => []
  | fuel + 1, chars =>
      match accept .dot chars with
      | .ok (true, rest) => chainVerbatims fuel rest
      | _ => []

end

/-- The texts behind the opening brackets of the verbatim segments of a literal pattern. -/
def verbatims (text : String) : List (List Char) :=
  chainVerbatims (2 * text.toList.length + 2) text.toList

/-! ## Chains -/

/-- The text was read up to blanks at its end, as a literal chain with these segments. -/
def Yields (result : Except ParseError (Chain × List Char)) (segments : List Segment) : Prop :=
  ∃ steps rest, result = .ok (steps, rest) ∧ withoutBlanks rest = [] ∧
    (∀ step ∈ steps, step.isOperator = false) ∧ steps.filterMap Step.segment? = segments

theorem yields_map_iff {result : Except ParseError (Chain × List Char)} {front : Chain}
    {segments : List Segment} (hfront : ∀ step ∈ front, step.isOperator = false) :
    Yields (result.map fun read => (front ++ read.1, read.2)) segments ↔
      ∃ more, segments = front.filterMap Step.segment? ++ more ∧ Yields result more := by
  constructor
  · rintro ⟨steps, rest, hread, hrest, hliteral, rfl⟩
    cases result with
    | error fault => cases hread
    | ok read =>
        obtain ⟨more, rest⟩ := read
        cases hread
        refine ⟨_, List.filterMap_append .., more, rest, rfl, hrest, ?_, rfl⟩
        exact (List.forall_mem_append.mp hliteral).2
  · rintro ⟨_, rfl, more, rest, rfl, hrest, hliteral, rfl⟩
    exact ⟨front ++ more, rest, rfl, hrest, List.forall_mem_append.mpr ⟨hfront, hliteral⟩,
      List.filterMap_append ..⟩

theorem isOperator_nameSteps {bracketed expand : Bool} {text : String} {more : List String}
    (h : ∀ step ∈ nameSteps bracketed text more expand, step.isOperator = false) :
    expand = false := by
  induction more generalizing bracketed text with
  | nil => exact h _ List.mem_cons_self
  | cons index more ih => exact ih fun step hs => h step (List.mem_cons_of_mem _ hs)

/-- Behind a chain that is all of a text comes nothing, behind one of its segments at most a
dot. -/
theorem startsIn_of_link {fuel : Nat} {text rest : List Char} {steps : Chain}
    (h : link fuel text = .ok (steps, rest)) (hrest : withoutBlanks rest = []) :
    StartsIn [.dot] (withoutBlanks text) := by
  cases fuel with
  | zero => cases h
  | succ fuel =>
      cases link_succ_eq_ok_iff.mp h with
      | none ha =>
          cases accept_eq_ok_iff.mp ha with
          | absent => exact Or.inl hrest
      | some ha _ =>
          cases accept_eq_ok_iff.mp ha with
          | present ht =>
              rw [(next_mark_withoutBlanks ht (by simp)).1]
              exact startsIn_cons (List.mem_singleton_self _) _

theorem indices_withoutBlanks {fuel : Nat} {text rest : List Char} {all : List String}
    (h : indices fuel text = .ok (all, rest)) (hnames : ∀ index ∈ all, stripBlanks index = index)
    (hrest : StartsIn [.dot] (withoutBlanks rest)) :
    StartsIn [.dot, .bracketL] (withoutBlanks text) ∧
      ∀ fuel', (withoutBlanks text).length ≤ fuel' →
        indices fuel' (withoutBlanks text) = .ok (all, withoutBlanks rest) := by
  -- Where no index is read, no bracket follows, whether or not there is fuel for one.
  have hnone : StartsIn [.dot, .bracketL] (withoutBlanks rest) ∧
      ∀ fuel', (withoutBlanks rest).length ≤ fuel' →
        indices fuel' (withoutBlanks rest) = .ok ([], withoutBlanks rest) := by
    refine ⟨hrest.mono (by simp), fun fuel' _ => ?_⟩
    cases fuel' with
    | zero => rfl
    | succ fuel' =>
        obtain ⟨t, ht, -, hne⟩ := next_of_startsIn hrest (by decide) false
        exact indices_succ_eq_ok_iff.mpr (.none ht (hne _ (by decide)))
  induction fuel generalizing text all with
  | zero =>
      cases h
      exact hnone
  | succ fuel ih =>
      cases indices_succ_eq_ok_iff.mp h with
      | none _ _ => exact hnone
      | @more _ inner index _ inner' after others _ ht hu hne he ho =>
          obtain ⟨hindex, hothers⟩ := List.forall_mem_cons.mp hnames
          obtain ⟨start, hclose⟩ := expect_eq_ok_iff.mp he
          obtain ⟨hafter, hread⟩ := ih ho hothers
          obtain ⟨htext', hclose'⟩ := next_mark_withoutBlanks hclose (by simp)
          have hbracket : StartsIn [.bracketR] (withoutBlanks inner') := by
            rw [htext']
            exact startsIn_cons (List.mem_singleton_self _) _
          obtain ⟨⟨start', hname⟩, hhead⟩ := next_name_withoutBlanks hu hindex hbracket
          obtain ⟨htext, hopen⟩ := next_mark_withoutBlanks ht fun _ _ => hhead
          refine ⟨htext ▸ startsIn_cons (by simp) _, fun fuel' hf => ?_⟩
          have hlength := Lexeme.length_lt_of_next hname (by simp)
          rw [htext'] at hlength
          rw [htext] at hf
          simp only [List.length_cons] at hlength hf
          obtain ⟨fuel', rfl⟩ : ∃ n, fuel' = n + 1 := ⟨fuel' - 1, by omega⟩
          apply indices_succ_eq_ok_iff.mpr
          exact .more hopen hname hne (expect_eq_ok_iff.mpr ⟨_, hclose'⟩) (hread fuel' (by omega))

theorem chain_of_name {fuel : Nat} {text start inner after : List Char} {name : String}
    {more : List String} (ht : Lexeme.next false text = .ok ⟨.name name, start, inner⟩)
    (hne : name ≠ "") (hi : indices fuel inner = .ok (more, after))
    (ha : accept .tilde after = .ok (false, after)) :
    chain (fuel + 1) text =
      (link fuel after).map fun read => (nameSteps false name more false ++ read.1, read.2) := by
  simp only [chain, ht, hi, ha, bind, Except.bind, hne, String.isEmpty_iff]
  cases link fuel after <;> rfl

theorem chain_of_verbatim {fuel : Nat} {text start inner : List Char} {body : String}
    (ht : Lexeme.next false text = .ok ⟨.verbatim body, start, inner⟩) :
    chain (fuel + 1) text =
      (link fuel inner).map fun read => ([.verbatim (stripBlanks body)] ++ read.1, read.2) := by
  simp only [chain, ht, bind, Except.bind]
  cases link fuel inner <;> rfl

/-- A literal chain with nothing but blanks behind it, and no blank that holds a segment of it
together. -/
structure TightSteps (steps : Chain) (rest : List Char) : Prop where
  literal : ∀ step ∈ steps, step.isOperator = false
  segments : ∀ segment ∈ steps.filterMap Step.segment?, segment.Tight
  blank : withoutBlanks rest = []

theorem TightSteps.of_append {front steps : Chain} {rest : List Char}
    (h : TightSteps (front ++ steps) rest) : TightSteps steps rest := by
  have hsegments := h.segments
  rw [List.filterMap_append] at hsegments
  exact ⟨(List.forall_mem_append.mp h.literal).2, (List.forall_mem_append.mp hsegments).2, h.blank⟩

/-- What is read with this much fuel is read alike without blanks just if the verbatim bodies in
it are. -/
structure ReadsWithoutBlanks (fuel : Nat) : Prop where
  chain : ∀ {text rest steps}, Pattern.chain fuel text = .ok (steps, rest) →
    TightSteps steps rest → ∀ {fuel'}, 2 * (withoutBlanks text).length ≤ fuel' →
      ((∀ inner ∈ chainVerbatims fuel text, ReadAlike inner) ↔
        Yields (Pattern.chain fuel' (withoutBlanks text)) (steps.filterMap Step.segment?))
  link : ∀ {text rest steps}, Pattern.link fuel text = .ok (steps, rest) →
    TightSteps steps rest → ∀ {fuel'}, 2 * (withoutBlanks text).length < fuel' →
      ((∀ inner ∈ linkVerbatims fuel text, ReadAlike inner) ↔
        Yields (Pattern.link fuel' (withoutBlanks text)) (steps.filterMap Step.segment?))

variable {fuel fuel' : Nat} {text start inner rest : List Char} {others : Chain}

theorem yields_chain_name (ih : ReadsWithoutBlanks fuel) {name : String} {more : List String}
    {after after' : List Char} {expand : Bool}
    (ht : Lexeme.next false text = .ok ⟨.name name, start, inner⟩) (hne : name ≠ "")
    (hi : indices fuel inner = .ok (more, after)) (ha : accept .tilde after = .ok (expand, after'))
    (hl : link fuel after' = .ok (others, rest))
    (hsteps : TightSteps (nameSteps false name more expand ++ others) rest)
    (hf : 2 * (withoutBlanks text).length ≤ fuel') :
    (∀ inner ∈ chainVerbatims (fuel + 1) text, ReadAlike inner) ↔
      Yields (chain fuel' (withoutBlanks text))
        ((nameSteps false name more expand ++ others).filterMap Step.segment?) := by
  have hfront := (List.forall_mem_append.mp hsteps.literal).1
  obtain rfl := isOperator_nameSteps hfront
  obtain rfl : after' = after := by
    cases accept_eq_ok_iff.mp ha with
    | absent => rfl
  have hstart := startsIn_of_link hl hsteps.blank
  have hspaced : ∀ index ∈ name :: more, stripBlanks index = index := by
    intro index hmem
    refine Segment.tight_ofName_iff.mp (hsteps.segments _ ?_)
    rw [List.filterMap_append, filterMap_nameSteps]
    exact List.mem_append_left _ (List.mem_map_of_mem hmem)
  obtain ⟨hname, hmore⟩ := List.forall_mem_cons.mp hspaced
  obtain ⟨hinner, hindices⟩ := indices_withoutBlanks hi hmore hstart
  obtain ⟨⟨start', ht'⟩, -⟩ := next_name_withoutBlanks ht hname hinner
  have hshorter := Lexeme.length_lt_of_next ht' (by simp)
  have hafter := (withoutBlanks_sublist (indices_readIn hi).1).length_le
  obtain ⟨fuel', rfl⟩ : ∃ n, fuel' = n + 1 := ⟨fuel' - 1, by omega⟩
  have hverbatims : chainVerbatims (fuel + 1) text = linkVerbatims fuel after' := by
    simp only [chainVerbatims, ht, hi]
  rw [hverbatims, chain_of_name ht' hne (hindices fuel' (by omega))
    (accept_absent hstart (by decide) (by decide)), yields_map_iff hfront, List.filterMap_append]
  have hfuel : 2 * (withoutBlanks after').length < fuel' := by omega
  refine (ih.link hl hsteps.of_append hfuel).trans ?_
  constructor
  · intro hyields
    exact ⟨_, rfl, hyields⟩
  · rintro ⟨_, heq, hyields⟩
    exact List.append_cancel_left heq ▸ hyields

theorem yields_chain_verbatim (ih : ReadsWithoutBlanks fuel) {body : String}
    (ht : Lexeme.next false text = .ok ⟨.verbatim body, start, inner⟩)
    (hl : link fuel inner = .ok (others, rest)) (hothers : TightSteps others rest)
    (hf : 2 * (withoutBlanks text).length ≤ fuel') :
    (∀ inner ∈ chainVerbatims (fuel + 1) text, ReadAlike inner) ↔
      Yields (chain fuel' (withoutBlanks text))
        (.key (.name (stripBlanks body)) :: others.filterMap Step.segment?) := by
  cases Lexeme.next_eq_ok_iff.mp ht with
  | @verbatim content body _ _ hs hv =>
      have htext : withoutBlanks text = '[' :: '[' :: withoutBlanks content := by
        rw [← withoutBlanks_dropWhile, hs]
        rfl
      have hverbatims : chainVerbatims (fuel + 1) text = content :: linkVerbatims fuel inner := by
        simp only [chainVerbatims, ht, List.drop_succ_cons, List.drop_zero]
      have hlength := (withoutBlanks_sublist
        ((List.sublist_append_right ..).trans (readVerbatim_sublist hv))).length_le
      rw [withoutBlanks_cons (by decide), withoutBlanks_cons (by decide)] at hlength
      rw [htext] at hf ⊢
      simp only [List.length_cons] at hlength hf
      obtain ⟨fuel', rfl⟩ : ∃ n, fuel' = n + 1 := ⟨fuel' - 1, by omega⟩
      have hfuel : 2 * (withoutBlanks inner).length < fuel' := by omega
      rw [hverbatims, List.forall_mem_cons, ih.link hl hothers hfuel]
      cases hread : readVerbatim (withoutBlanks content) with
      | none =>
          -- The brackets that close the body are gone, and there is no chain at all.
          refine iff_of_false ?_ ?_
          · rintro ⟨hcontent, -⟩
            rw [ReadAlike, hread, hv] at hcontent
            cases hcontent
          · rintro ⟨steps, after, hchain, -⟩
            simp only [chain, next_opening, hread] at hchain
            cases hchain
      | some read =>
          obtain ⟨body', after⟩ := read
          have ht' := next_opening (withoutBlanks content)
          rw [hread] at ht'
          have hbare : withoutBlanks body' = body' := by
            refine bare_iff.mp fun c hc => bare_withoutBlanks content c ?_
            exact (readVerbatim_sublist hread).subset (List.mem_append_left _ hc)
          rw [chain_of_verbatim ht', yields_map_iff (by simp [Step.isOperator, Step.isWildcard])]
          constructor
          · rintro ⟨hcontent, hyields⟩
            rw [ReadAlike, hread, hv] at hcontent
            obtain ⟨rfl, rfl⟩ := Prod.mk.inj (Option.some.inj hcontent)
            exact ⟨_, by simp [Step.segment?, stripBlanks], hyields⟩
          · rintro ⟨more, heq, hyields⟩
            obtain ⟨hhead, rfl⟩ := List.cons.inj heq
            have hbody : body' = withoutBlanks body := by
              simpa [stripBlanks, hbare, String.ofList_inj] using hhead.symm
            obtain rfl := readAlike_of_body hv hread hbody
            refine ⟨?_, hyields⟩
            rw [ReadAlike, hread, hv, hbody]
            rfl

theorem yields_chain_destructor {m : Mark} {d : Destructor} (hm : m = .braceL ∨ m = .bracketL)
    (ht : Lexeme.next false text = .ok ⟨.mark m, start, inner⟩)
    (hd : destructor fuel ⟨.mark m, start, inner⟩ m = .ok (d, rest))
    (hrest : withoutBlanks rest = []) (htight : Segment.Tight (.destructor d))
    (hf : 2 * (withoutBlanks text).length ≤ fuel') :
    (∀ inner ∈ chainVerbatims (fuel + 1) text, ReadAlike inner) ↔
      Yields (chain fuel' (withoutBlanks text)) [.destructor d] := by
  obtain ⟨hnames, hopen⟩ := htight
  obtain ⟨body, hsource, htext, hread⟩ := Destructor.exists_body_of_read ht hd hnames
  have hbare : Bare d.source.toList := by
    rw [(destructor_eq_ok_iff.mp hd).2.2, String.toList_ofList]
    exact bare_withoutBlanks _
  rw [hrest, List.append_nil] at htext
  rw [htext, List.length_cons] at hf
  obtain ⟨fuel', rfl⟩ : ∃ n, fuel' = n + 1 := ⟨fuel' - 1, by omega⟩
  have hchain := (Destructor.chain_source hm hsource hread hbare hopen
    (by omega : 2 * body.length ≤ fuel')).2
  have hverbatims : chainVerbatims (fuel + 1) text = [] := by
    simp only [chainVerbatims, ht]
  rw [hverbatims, htext]
  refine iff_of_true (List.forall_mem_nil _) ⟨_, [], hchain, rfl, ?_, rfl⟩
  simp [Step.isOperator, Step.isWildcard]

theorem yields_link (ih : ReadsWithoutBlanks fuel) {steps : Chain}
    (h : link (fuel + 1) text = .ok (steps, rest)) (hsteps : TightSteps steps rest)
    (hf : 2 * (withoutBlanks text).length < fuel') :
    (∀ inner ∈ linkVerbatims (fuel + 1) text, ReadAlike inner) ↔
      Yields (link fuel' (withoutBlanks text)) (steps.filterMap Step.segment?) := by
  obtain ⟨fuel', rfl⟩ : ∃ n, fuel' = n + 1 := ⟨fuel' - 1, by omega⟩
  cases link_succ_eq_ok_iff.mp h with
  | none ha =>
      have hverbatims : linkVerbatims (fuel + 1) text = [] := by
        simp only [linkVerbatims, ha]
      obtain rfl : rest = text := by
        cases accept_eq_ok_iff.mp ha with
        | absent => rfl
      rw [hverbatims, hsteps.blank]
      exact iff_of_true (List.forall_mem_nil _) ⟨[], [], rfl, rfl, List.forall_mem_nil _, rfl⟩
  | @some inner _ _ ha hc =>
      have hverbatims : linkVerbatims (fuel + 1) text = chainVerbatims fuel inner := by
        simp only [linkVerbatims, ha]
      cases accept_eq_ok_iff.mp ha with
      | present ht =>
          obtain ⟨htext, ht'⟩ := next_mark_withoutBlanks ht (by simp)
          have hlink :
              link (fuel' + 1) (withoutBlanks text) = chain fuel' (withoutBlanks inner) := by
            have haccept := accept_eq_ok_iff.mpr (.present ht')
            simp only [link, haccept, bind, Except.bind, if_true]
          rw [htext, List.length_cons] at hf
          rw [hverbatims, hlink]
          exact ih.chain hc hsteps (by omega)

theorem readsWithoutBlanks (fuel : Nat) : ReadsWithoutBlanks fuel := by
  induction fuel with
  | zero =>
      refine ⟨?_, ?_⟩
      all_goals
        intro text rest steps h
        cases h
  | succ fuel ih =>
      refine ⟨?_, fun h hsteps _ hf => yields_link ih h hsteps hf⟩
      intro text rest steps h hsteps fuel' hf
      cases chain_succ_eq_ok_iff.mp h with
      | name ht hne hi ha hl => exact yields_chain_name ih ht hne hi ha hl hsteps hf
      | verbatim ht hl =>
          have hothers := @TightSteps.of_append [_] _ _ hsteps
          exact yields_chain_verbatim ih ht hl hothers hf
      | wildcard _ hw _ =>
          have hstep := hsteps.literal _ List.mem_cons_self
          rw [isOperator_of_wildcard hw] at hstep
          cases hstep
      | destructor ht hm hd =>
          have htight := hsteps.segments _ List.mem_cons_self
          exact yields_chain_destructor hm ht hd hsteps.blank htight hf

end Pattern

/-! ## Whole patterns -/

theorem Chain.exists_parse_iff_yields {text : String} {segments : List Segment}
    (hne : withoutBlanks text.toList ≠ []) :
    (∃ chain, Chain.parse text = .ok chain ∧ chain.isMatch = false ∧ chain.segments = segments) ↔
      Pattern.Yields (Pattern.chain (2 * text.toList.length + 2) text.toList) segments := by
  constructor
  · rintro ⟨chain, hparse, hliteral, rfl⟩
    cases Chain.parse_eq_ok_iff.mp hparse with
    | blank ht he =>
        exact absurd (withoutBlanks_eq_nil_iff.mpr ((Lexeme.token_eq_eof_iff ht).mp he)) hne
    | @steps _ _ rest _ _ _ hc hu he =>
        have hrest := withoutBlanks_eq_nil_iff.mpr ((Lexeme.token_eq_eof_iff hu).mp he)
        exact ⟨chain, rest, hc, hrest, Chain.not_isMatch_iff.mp hliteral,
          (Chain.segments_of_not_isMatch hliteral).symm⟩
  · rintro ⟨chain, rest, hc, hrest, hsteps, rfl⟩
    have hliteral := Chain.not_isMatch_iff.mpr hsteps
    refine ⟨chain, Chain.parse_eq_ok_iff.mpr ?_, hliteral, Chain.segments_of_not_isMatch hliteral⟩
    obtain ⟨t, ht, -, he⟩ := Pattern.next_of_chain_eq_ok hc
    have hu : Lexeme.next false rest = .ok ⟨.eof, [], []⟩ := by
      apply Lexeme.next_eq_ok_iff.mpr
      exact .eof (List.dropWhile_eq_nil_iff.mpr (withoutBlanks_eq_nil_iff.mp hrest))
    exact .steps ht he hc hu rfl

/-- No blank of a literal pattern matters to its segments. -/
structure TightText (text : String) (segments : List Segment) : Prop where
  segments : ∀ segment ∈ segments, segment.Tight
  verbatims : ∀ inner ∈ Pattern.verbatims text, ReadAlike inner

/-- Without its blanks a literal pattern has the same segments just if no blank matters to them. -/
theorem Chain.exists_parse_stripBlanks_iff {text : String} {chain : Chain}
    (h : Chain.parse text = .ok chain) (hliteral : chain.isMatch = false) :
    (∃ bare, Chain.parse (stripBlanks text) = .ok bare ∧ bare.isMatch = false ∧
      bare.segments = chain.segments) ↔ TightText text chain.segments := by
  cases Chain.parse_eq_ok_iff.mp h with
  | @blank t ht he =>
      have htext : stripBlanks text = "" := by
        rw [stripBlanks, withoutBlanks_eq_nil_iff.mpr ((Lexeme.token_eq_eof_iff ht).mp he)]
      have hverbatims : Pattern.verbatims text = [] := by
        obtain ⟨token, start, rest⟩ := t
        obtain rfl : token = .eof := he
        simp only [Pattern.verbatims, Pattern.chainVerbatims, ht]
      refine iff_of_true ⟨[], ?_, rfl, rfl⟩ ⟨List.forall_mem_nil _, ?_⟩
      · rw [htext]
        rfl
      · rw [hverbatims]
        exact List.forall_mem_nil _
  | @steps t _ rest _ ht he hc hu he' =>
      have hrest := withoutBlanks_eq_nil_iff.mpr ((Lexeme.token_eq_eof_iff hu).mp he')
      have hchars : (stripBlanks text).toList = withoutBlanks text.toList := String.toList_ofList
      have hne : withoutBlanks (stripBlanks text).toList ≠ [] := by
        rw [hchars, withoutBlanks_withoutBlanks]
        intro hblank
        exact he ((Lexeme.token_eq_eof_iff ht).mpr (withoutBlanks_eq_nil_iff.mp hblank))
      have hread (htight : ∀ segment ∈ chain.segments, segment.Tight) :
          (∀ inner ∈ Pattern.verbatims text, ReadAlike inner) ↔
            ∃ bare, Chain.parse (stripBlanks text) = .ok bare ∧ bare.isMatch = false ∧
              bare.segments = chain.segments := by
        rw [Chain.exists_parse_iff_yields hne, hchars]
        rw [Chain.segments_of_not_isMatch hliteral] at htight ⊢
        exact (Pattern.readsWithoutBlanks _).chain hc
          ⟨Chain.not_isMatch_iff.mp hliteral, htight, hrest⟩ (by omega)
      constructor
      · rintro ⟨bare, hparse, hbare, hsegments⟩
        have htight : ∀ segment ∈ chain.segments, segment.Tight := by
          intro segment hmem
          rw [← hsegments] at hmem
          refine (Chain.readIn_of_parse hparse segment hmem).tight ?_
          rw [hchars]
          exact bare_withoutBlanks _
        exact ⟨htight, (hread htight).mpr ⟨bare, hparse, hbare, hsegments⟩⟩
      · intro htight
        exact (hread htight.segments).mp htight.verbatims

end DocPath
