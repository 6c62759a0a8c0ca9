import DocPath.Proofs.Pattern.Spelling

/-! # Chains read back

Every well-formed chain is read back from its printed text. Two units of fuel for each printed
character are enough, so the induction is on the fuel, as the readers recurse. -/

namespace DocPath

namespace Pattern

/-! ## Templates -/

theorem slot_blank {c : Char} (h : isBlank c = true) (fuel : Nat) (text : List Char) :
    slot fuel (c :: text) = slot fuel text := by
  cases fuel with
  | zero => rfl
  | succ fuel => simp only [slot, next_blank h]

theorem elements_blank {c : Char} (h : isBlank c = true) (fuel : Nat) (text : List Char) :
    elements fuel (c :: text) = elements fuel text := by
  cases fuel with
  | zero => rfl
  | succ fuel => simp only [elements, next_blank h, slot_blank h]

theorem length_spell_pos {name : String} (h : name ≠ "") : 0 < (spell name).length := by
  obtain ⟨c, rest, hc, -, -⟩ := head_spell h
  simp [hc]

theorem length_slot_print_pos {s : Slot} (h : s.Named) : 0 < s.print.length := by
  cases s with
  | name name => exact length_spell_pos h
  | nested t => cases t <;> simp [Slot.print, Template.print]

/-- A printed property is read in front of what may follow it, if its slot is. -/
theorem property_print {fuel : Nat} {marks : List Mark} {rest : List Char} {p : Property}
    (hn : p.Named) (hr : StartsIn marks rest) (hb : Mark.bracketL ∉ marks)
    (hc : Mark.colon ∉ marks)
    (ih : ∀ {s : Slot}, s.Named → 2 * s.print.length ≤ fuel →
      slot fuel (s.print ++ rest) = .ok (s, rest))
    (hf : 2 * p.print.length ≤ fuel) :
    ∃ key start inner, Lexeme.next true (p.print ++ rest) = .ok ⟨.name key, start, inner⟩ ∧
      key ≠ "" ∧ property (slot fuel) key inner = .ok (p, rest) := by
  cases p with
  | plain key =>
      obtain ⟨t, ht, -, hne⟩ := next_of_startsIn hr hb true
      refine ⟨key, _, rest, next_spell hn hr true, hn, ?_⟩
      apply property_eq_ok_iff.mpr
      exact .plain ht (hne _ hc)
  | bound key s =>
      obtain ⟨hkey, hs⟩ := hn
      simp only [Property.print, List.length_append, List.length_cons] at hf
      have htext : (Property.bound key s).print ++ rest =
          spell key ++ Mark.colon.char :: (s.print ++ rest) := by
        simp [Property.print]
      rw [htext]
      refine ⟨key, _, _, next_spell hkey (startsIn_cons (List.mem_singleton_self _) _) true,
        hkey, ?_⟩
      apply property_eq_ok_iff.mpr
      exact .bound (next_mark_of_ne (by decide) true _) (ih hs (by omega))

/-- With this much fuel printed slots are read back, and so are the insides of templates. -/
structure ReadsSlots (fuel : Nat) : Prop where
  slot : ∀ {s : Slot} {marks rest}, s.Named → StartsIn marks rest → 2 * s.print.length ≤ fuel →
    slot fuel (s.print ++ rest) = .ok (s, rest)
  properties : ∀ {all : List Property} (rest), PropertiesNamed all →
    2 * (printProperties all).length < fuel →
    properties fuel (printProperties all ++ Mark.braceR.char :: rest) = .ok (all, rest)
  elements : ∀ {all : List Slot} (rest), SlotsNamed all → 2 * (printSlots all).length < fuel →
    elements fuel (printSlots all ++ Mark.bracketR.char :: rest) = .ok (all, rest)

theorem slot_print {fuel : Nat} (ih : ReadsSlots fuel) {s : Slot} {marks : List Mark}
    {rest : List Char} (hn : s.Named) (hr : StartsIn marks rest)
    (hf : 2 * s.print.length ≤ fuel + 1) :
    slot (fuel + 1) (s.print ++ rest) = .ok (s, rest) := by
  match s with
  | .name name => exact slot_succ_eq_ok_iff.mpr (.name (next_spell hn hr true) hn)
  | .nested (.object properties) =>
      simp only [Slot.print, Template.print, List.length_cons, List.length_append] at hf
      have hp := ih.properties rest hn (by omega)
      rw [Slot.print, Template.print_object_append]
      apply slot_succ_eq_ok_iff.mpr
      exact .object (next_mark_of_ne (by decide) true _) hp
  | .nested (.array elements) =>
      simp only [Slot.print, Template.print, List.length_cons, List.length_append] at hf
      have he := ih.elements rest hn (by omega)
      rw [← elements_blank (c := ' ') (by decide)] at he
      rw [Slot.print, Template.print_array_append]
      apply slot_succ_eq_ok_iff.mpr
      exact .array (next_mark (fun _ hi => by cases hi)) he

theorem properties_print {fuel : Nat} (ih : ReadsSlots fuel) {all : List Property}
    (rest : List Char) (hn : PropertiesNamed all)
    (hf : 2 * (printProperties all).length < fuel + 1) :
    properties (fuel + 1) (printProperties all ++ Mark.braceR.char :: rest) =
      .ok (all, rest) := by
  match all with
  | [] => exact properties_succ_eq_ok_iff.mpr (.none (next_mark_of_ne (by decide) true rest))
  | [p] =>
      simp only [printProperties] at hf ⊢
      have hr := startsIn_cons (List.mem_singleton_self Mark.braceR) rest
      obtain ⟨key, start, inner, ht, hkey, hp⟩ := property_print hn.1 hr (by decide)
        (by decide) (fun hs hf => ih.slot hs hr hf) (by omega)
      apply properties_succ_eq_ok_iff.mpr
      exact .last ht hkey hp (next_mark_of_ne (by decide) true rest)
  | p :: q :: others =>
      have htext : printProperties (p :: q :: others) ++ Mark.braceR.char :: rest =
          p.print ++ Mark.comma.char ::
            (printProperties (q :: others) ++ Mark.braceR.char :: rest) := by
        simp [printProperties]
      simp only [printProperties, List.length_append, List.length_cons] at hf
      have hr := startsIn_cons (List.mem_singleton_self Mark.comma)
        (printProperties (q :: others) ++ Mark.braceR.char :: rest)
      obtain ⟨key, start, inner, ht, hkey, hp⟩ := property_print hn.1 hr (by decide)
        (by decide) (fun hs hf => ih.slot hs hr hf) (by omega)
      have ho := ih.properties rest hn.2 (by omega)
      rw [htext]
      apply properties_succ_eq_ok_iff.mpr
      exact .more ht hkey hp (next_mark_of_ne (by decide) true _) ho

theorem elements_print {fuel : Nat} (ih : ReadsSlots fuel) {all : List Slot} (rest : List Char)
    (hn : SlotsNamed all) (hf : 2 * (printSlots all).length < fuel + 1) :
    elements (fuel + 1) (printSlots all ++ Mark.bracketR.char :: rest) = .ok (all, rest) := by
  match all with
  | [] => exact elements_succ_eq_ok_iff.mpr (.none (next_mark_of_ne (by decide) true rest))
  | [s] =>
      simp only [printSlots] at hf
      have hr := startsIn_cons (List.mem_singleton_self Mark.bracketR) rest
      have hs := ih.slot hn.1 hr (by omega)
      apply elements_succ_eq_ok_iff.mpr
      exact .last hs (next_mark_of_ne (by decide) true rest)
  | s :: s' :: others =>
      have htext : printSlots (s :: s' :: others) ++ Mark.bracketR.char :: rest =
          s.print ++ Mark.comma.char ::
            (printSlots (s' :: others) ++ Mark.bracketR.char :: rest) := by
        simp [printSlots]
      simp only [printSlots, List.length_append, List.length_cons] at hf
      have hr := startsIn_cons (List.mem_singleton_self Mark.comma)
        (printSlots (s' :: others) ++ Mark.bracketR.char :: rest)
      have hs := ih.slot hn.1 hr (by omega)
      have ho := ih.elements rest hn.2 (by omega)
      rw [htext]
      apply elements_succ_eq_ok_iff.mpr
      exact .more hs (next_mark_of_ne (by decide) true _) ho

theorem readsSlots (fuel : Nat) : ReadsSlots fuel := by
  induction fuel with
  | zero =>
      refine ⟨?_, ?_, ?_⟩
      · intro s marks rest hn _ hf
        have hpos := length_slot_print_pos hn
        omega
      · intro all rest _ hf
        omega
      · intro all rest _ hf
        omega
  | succ fuel ih => exact ⟨slot_print ih, properties_print ih, elements_print ih⟩

theorem destructor_print {fuel : Nat} {d : Destructor} {marks : List Mark} {rest : List Char}
    (hn : d.template.Named) (hr : StartsIn marks rest) (hb : Mark.bracketL ∉ marks)
    (hd : Mark.dot ∉ marks) (hf : 2 * d.template.print.length ≤ fuel) :
    ∃ m start inner, (m = .braceL ∨ m = .bracketL) ∧
      Lexeme.next false (d.template.print ++ rest) = .ok ⟨.mark m, start, inner⟩ ∧
      destructor fuel ⟨.mark m, start, inner⟩ m = .ok (d.reprinted, rest) := by
  obtain ⟨shape, source⟩ := d
  obtain ⟨t, ht, -, hne⟩ := next_of_startsIn hr hb false
  have htaken : List.take ((shape.print ++ rest).length - rest.length) (shape.print ++ rest) =
      shape.print := by
    simp
  have hsource : (Destructor.reprinted ⟨shape, source⟩).source = String.ofList (withoutBlanks
      (List.take ((shape.print ++ rest).length - rest.length) (shape.print ++ rest))) := by
    rw [htaken]
    rfl
  cases shape with
  | object properties =>
      simp only [Template.print, List.length_cons, List.length_append] at hf
      have hp := (readsSlots fuel).properties rest hn (by omega)
      rw [Template.print_object_append] at hsource ⊢
      exact ⟨.braceL, _, _, Or.inl rfl, next_mark_of_ne (by decide) false _,
        destructor_eq_ok_iff.mpr
          ⟨template_eq_ok_iff.mpr (.object hp), ⟨t, ht, hne _ hd⟩, hsource⟩⟩
  | array elements =>
      simp only [Template.print, List.length_cons, List.length_append] at hf
      have he := (readsSlots fuel).elements rest hn (by omega)
      rw [← elements_blank (c := ' ') (by decide)] at he
      rw [Template.print_array_append] at hsource ⊢
      exact ⟨.bracketL, _, _, Or.inr rfl, next_mark (fun _ _ => by simp),
        destructor_eq_ok_iff.mpr
          ⟨template_eq_ok_iff.mpr (.array (by decide) he), ⟨t, ht, hne _ hd⟩, hsource⟩⟩

/-! ## Names -/

theorem indices_print {all : List String} (hne : ∀ index ∈ all, index ≠ "")
    {marks : List Mark} {after : List Char} (ha : StartsIn marks after)
    (hb : Mark.bracketL ∉ marks) {fuel : Nat} (hf : all.length ≤ fuel) :
    indices fuel (all.flatMap printIndex ++ after) = .ok (all, after) := by
  induction all generalizing fuel with
  | nil =>
      cases fuel with
      | zero => rfl
      | succ fuel =>
          obtain ⟨t, ht, -, hm⟩ := next_of_startsIn ha hb false
          apply indices_succ_eq_ok_iff.mpr
          exact .none ht (hm _ hb)
  | cons index more ih =>
      obtain ⟨fuel, rfl⟩ : ∃ n, fuel = n + 1 := ⟨fuel - 1, by simp at hf; omega⟩
      have hindex : index ≠ "" := hne index (by simp)
      have hmore := ih (fun i hi => hne i (by simp [hi])) (by simpa using hf)
      have htext : (index :: more).flatMap printIndex ++ after = Mark.bracketL.char ::
          (spell index ++ Mark.bracketR.char :: (more.flatMap printIndex ++ after)) := by
        simp [printIndex]
      rw [htext]
      apply indices_succ_eq_ok_iff.mpr
      exact .more (next_mark fun _ _ => head?_spell_ne hindex _)
        (next_spell hindex (startsIn_cons (List.mem_singleton_self _) _) false) hindex
        (expect_bracketR _ _ _) hmore

theorem length_le_length_printIndex (more : List String) :
    more.length ≤ (more.flatMap printIndex).length := by
  induction more with
  | nil => exact Nat.le_refl 0
  | cons index more ih =>
      simp only [List.flatMap_cons, List.length_append, List.length_cons, printIndex]
      omega

theorem accept_tilde_print (expand : Bool) {marks : List Mark} {after : List Char}
    (ha : StartsIn marks after) (hb : Mark.bracketL ∉ marks) (ht : Mark.tilde ∉ marks) :
    accept .tilde (printExpand expand ++ after) = .ok (expand, after) := by
  cases expand with
  | false => exact accept_absent ha hb ht
  | true => exact accept_present (by decide) after

theorem startsIn_printExpand (expand : Bool) {marks : List Mark} {after : List Char}
    (ha : StartsIn marks after) : StartsIn (.tilde :: marks) (printExpand expand ++ after) := by
  cases expand with
  | false => exact ha.mono (by simp)
  | true => exact startsIn_cons (by simp) after

/-! ## Chains -/

/-- The marks that can stand behind a segment. -/
def ending : List Mark := [.dot, .comma, .parenR]

theorem printRest_of_wellFormed {steps : Chain} (h : steps.WellFormed) :
    printRest steps = Mark.dot.char :: printSteps steps := by
  cases h <;> rfl

theorem startsIn_printRest {steps : Chain} (h : steps ≠ [] → steps.WellFormed)
    {rest : List Char} (hr : StartsIn [.comma, .parenR] rest) :
    StartsIn ending (printRest steps ++ rest) := by
  cases steps with
  | nil => exact hr.mono (by simp [ending])
  | cons step others =>
      rw [printRest_of_wellFormed (h (List.cons_ne_nil _ _))]
      exact startsIn_cons (by simp [ending]) _

theorem next_of_chain_eq_ok {fuel : Nat} {text rest : List Char} {steps : Chain}
    (h : chain fuel text = .ok (steps, rest)) :
    ∃ t, Lexeme.next false text = .ok t ∧ t.token ≠ .mark .bang ∧ t.token ≠ .eof := by
  cases fuel with
  | zero => cases h
  | succ fuel =>
      cases chain_succ_eq_ok_iff.mp h with
      | name ht => exact ⟨_, ht, by simp, by simp⟩
      | verbatim ht => exact ⟨_, ht, by simp, by simp⟩
      | wildcard ht => exact ⟨_, ht, by simp, by simp⟩
      | destructor ht hm =>
          refine ⟨_, ht, ?_, by simp⟩
          rcases hm with rfl | rfl
          · simp
          · simp

theorem accept_bang_print {exclude : Bool} {fuel : Nat} {text rest : List Char}
    {all : List Chain} (h : members fuel text = .ok (all, rest)) :
    accept .bang ((if exclude then [Mark.bang.char] else []) ++ text) = .ok (exclude, text) := by
  cases exclude with
  | true => exact accept_present (by decide) text
  | false =>
      cases fuel with
      | zero => cases h
      | succ fuel =>
          cases members_succ_eq_ok_iff.mp h with
          | last ht hb => exact accept_eq_ok_iff.mpr (.absent ht hb)
          | more ht hb => exact accept_eq_ok_iff.mpr (.absent ht hb)

/-- A printed name is read with its indices and its tilde, if what is behind it is. -/
theorem chain_print_name {fuel : Nat} {text : String} {more : List String} {expand : Bool}
    {after : Chain} {rest : List Char} (ht : text ≠ "") (hm : ∀ index ∈ more, index ≠ "")
    (ha : after ≠ [] → after.WellFormed) (hr : StartsIn [.comma, .parenR] rest)
    (hf : 2 * (printSteps (nameSteps false text more expand ++ after)).length ≤ fuel)
    (hl : 2 * (printRest after).length + 1 ≤ fuel →
      link fuel (printRest after ++ rest) = .ok (reprintedSteps after, rest)) :
    chain (fuel + 1) (printSteps (nameSteps false text more expand ++ after) ++ rest) =
      .ok (reprintedSteps (nameSteps false text more expand ++ after), rest) := by
  have hend := startsIn_printRest ha hr
  have htilde := startsIn_printExpand expand hend
  rw [printSteps_nameSteps] at hf ⊢
  simp only [List.length_append] at hf
  have hpos := length_spell_pos ht
  have hlength := length_le_length_printIndex more
  have hindices := indices_print hm htilde (by decide) (show more.length ≤ fuel by omega)
  have hname : StartsIn (.bracketL :: .tilde :: ending)
      (more.flatMap printIndex ++ (printExpand expand ++ (printRest after ++ rest))) := by
    cases more with
    | nil => exact htilde.mono (by simp)
    | cons index more => exact startsIn_cons (by simp) _
  rw [reprintedSteps_append, reprintedSteps_nameSteps]
  simp only [List.append_assoc]
  apply chain_succ_eq_ok_iff.mpr
  exact .name (next_spell ht hname false) ht hindices
    (accept_tilde_print expand hend (by decide) (by decide)) (hl (by omega))

theorem chain_print_verbatim {fuel : Nat} {body : String} {after : Chain} {rest : List Char}
    (hb : stripBlanks body = body)
    (hl : link fuel (printRest after ++ rest) = .ok (reprintedSteps after, rest)) :
    chain (fuel + 1) (printSteps (.verbatim body :: after) ++ rest) =
      .ok (reprintedSteps (.verbatim body :: after), rest) := by
  obtain ⟨start, ht⟩ := next_printVerbatim body (printRest after ++ rest)
  have hv := chain_succ_eq_ok_iff.mpr (.verbatim ht hl)
  rw [stripBlanks_append_blank, hb] at hv
  rw [printSteps, List.append_assoc]
  exact hv

/-- With this much fuel printed chains are read back, and so are their parts. -/
structure ReadsChains (fuel : Nat) : Prop where
  chain : ∀ {steps : Chain} {rest}, steps.WellFormed → StartsIn [.comma, .parenR] rest →
    2 * (printSteps steps).length + 1 ≤ fuel →
    chain fuel (printSteps steps ++ rest) = .ok (reprintedSteps steps, rest)
  link : ∀ {steps : Chain} {rest}, (steps ≠ [] → steps.WellFormed) →
    StartsIn [.comma, .parenR] rest → 2 * (printRest steps).length + 1 ≤ fuel →
    link fuel (printRest steps ++ rest) = .ok (reprintedSteps steps, rest)
  wildcard : ∀ {step : Step} {after : Chain} {rest}, step.isWildcard = true →
    Chain.WellFormed (step :: after) → StartsIn ending rest → 2 * step.print.length ≤ fuel →
    ∃ text, step.print = Mark.star.char :: text ∧
      wildcard fuel (text ++ rest) = .ok (step.reprinted, rest)
  members : ∀ {all : List Chain} (rest), all ≠ [] →
    (∀ member ∈ all, Chain.WellFormed member) → 2 * (printMembers all).length + 2 ≤ fuel →
    members fuel (printMembers all ++ Mark.parenR.char :: rest) =
      .ok (reprintedMembers all, rest)

theorem chain_print_wildcard {fuel : Nat} (ih : ReadsChains fuel) {step : Step} {after : Chain}
    {rest : List Char} (hs : step.isWildcard = true) (h : Chain.WellFormed (step :: after))
    (ha : after ≠ [] → after.WellFormed) (hr : StartsIn [.comma, .parenR] rest)
    (hf : 2 * (printSteps (step :: after)).length + 1 ≤ fuel + 1) :
    chain (fuel + 1) (printSteps (step :: after) ++ rest) =
      .ok (reprintedSteps (step :: after), rest) := by
  simp only [printSteps, List.length_append] at hf
  obtain ⟨text, htext, hw⟩ := ih.wildcard hs h (startsIn_printRest ha hr) (by omega)
  have hpos : 0 < step.print.length := by simp [htext]
  have hl := ih.link ha hr (by omega)
  rw [printSteps, List.append_assoc, htext]
  apply chain_succ_eq_ok_iff.mpr
  exact .wildcard (next_mark_of_ne (by decide) false _) hw hl

theorem chain_print {fuel : Nat} (ih : ReadsChains fuel) {steps : Chain} {rest : List Char}
    (h : steps.WellFormed) (hr : StartsIn [.comma, .parenR] rest)
    (hf : 2 * (printSteps steps).length + 1 ≤ fuel + 1) :
    chain (fuel + 1) (printSteps steps ++ rest) = .ok (reprintedSteps steps, rest) := by
  cases h with
  | @name text indices after ht hi ha =>
      rw [← List.cons_append, ← nameSteps_false false text indices] at hf ⊢
      exact chain_print_name ht hi ha hr (by omega) (ih.link ha hr)
  | @expandedName text after ht ha =>
      have hsteps : Step.name text false true :: after =
          nameSteps false text [] true ++ after := rfl
      rw [hsteps] at hf ⊢
      exact chain_print_name ht (by simp) ha hr (by omega) (ih.link ha hr)
  | @expandedIndex text indices last after ht hi hlast ha =>
      have hsteps : Step.name text false false ::
          (indices.map (Step.name · true false) ++ .name last true true :: after) =
            nameSteps false text (indices ++ [last]) true ++ after := by
        simp [nameSteps_append_true]
      have hall : ∀ index ∈ indices ++ [last], index ≠ "" := by
        intro index hmem
        rcases List.mem_append.mp hmem with hmem | hmem
        · exact hi index hmem
        · exact List.mem_singleton.mp hmem ▸ hlast
      rw [hsteps] at hf ⊢
      exact chain_print_name ht hall ha hr (by omega) (ih.link ha hr)
  | @verbatim body after hbody ha =>
      simp only [printSteps, Step.print, printVerbatim, List.length_append,
        List.length_cons] at hf
      exact chain_print_verbatim hbody (ih.link ha hr (by omega))
  | any ha => exact chain_print_wildcard ih rfl (.any ha) ha hr hf
  | range hb ha => exact chain_print_wildcard ih rfl (.range hb ha) ha hr hf
  | group hne hm ha => exact chain_print_wildcard ih rfl (.group hne hm ha) ha hr hf
  | @destructor d hd =>
      have htext : printSteps [.destructor d] = d.template.print := by
        simp [printSteps, Step.print, printRest]
      rw [htext] at hf ⊢
      have hfuel : 2 * d.template.print.length ≤ fuel := by omega
      obtain ⟨m, start, inner, hm, ht, hdestructor⟩ :=
        destructor_print hd hr (by decide) (by decide) hfuel
      apply chain_succ_eq_ok_iff.mpr
      exact .destructor ht hm hdestructor

theorem link_print {fuel : Nat} (ih : ReadsChains fuel) {steps : Chain} {rest : List Char}
    (h : steps ≠ [] → steps.WellFormed) (hr : StartsIn [.comma, .parenR] rest)
    (hf : 2 * (printRest steps).length + 1 ≤ fuel + 1) :
    link (fuel + 1) (printRest steps ++ rest) = .ok (reprintedSteps steps, rest) := by
  cases steps with
  | nil => exact link_succ_eq_ok_iff.mpr (.none (accept_absent hr (by decide) (by decide)))
  | cons step others =>
      have hw := h (List.cons_ne_nil _ _)
      rw [printRest_of_wellFormed hw] at hf ⊢
      simp only [List.length_cons] at hf
      have hc := ih.chain hw hr (by omega)
      apply link_succ_eq_ok_iff.mpr
      exact .some (accept_present (by decide) _) hc

theorem wildcard_print {fuel : Nat} (ih : ReadsChains fuel) {step : Step} {after : Chain}
    {rest : List Char} (hs : step.isWildcard = true) (h : Chain.WellFormed (step :: after))
    (hr : StartsIn ending rest) (hf : 2 * step.print.length ≤ fuel + 1) :
    ∃ text, step.print = Mark.star.char :: text ∧
      wildcard (fuel + 1) (text ++ rest) = .ok (step.reprinted, rest) := by
  cases h with
  | any _ =>
      obtain ⟨t, ht, -, hne⟩ := next_of_startsIn hr (by decide) false
      have hparen : t.token ≠ .mark .parenL := hne _ (by decide)
      have hbracket : t.token ≠ .mark .bracketL := hne _ (by decide)
      exact ⟨[], rfl, wildcard_succ_eq_ok_iff.mpr (.any ht hparen hbracket)⟩
  | @range bounds _ hb _ =>
      refine ⟨_, rfl, ?_⟩
      simp only [List.cons_append, List.append_assoc, List.nil_append]
      apply wildcard_succ_eq_ok_iff.mpr
      exact .range (next_mark fun _ _ => head?_printBound_ne _ _) (range_print hb rest)
  | @group exclude all _ hne hm _ =>
      simp only [Step.print, List.length_cons, List.length_append] at hf
      have hmembers := ih.members rest hne hm (by omega)
      refine ⟨_, rfl, ?_⟩
      simp only [List.cons_append, List.append_assoc, List.nil_append]
      apply wildcard_succ_eq_ok_iff.mpr
      exact .group (next_mark_of_ne (by decide) false _) (accept_bang_print hmembers) hmembers
  | _ => cases hs

theorem members_print {fuel : Nat} (ih : ReadsChains fuel) {all : List Chain}
    (rest : List Char) (hne : all ≠ []) (hm : ∀ member ∈ all, Chain.WellFormed member)
    (hf : 2 * (printMembers all).length + 2 ≤ fuel + 1) :
    members (fuel + 1) (printMembers all ++ Mark.parenR.char :: rest) =
      .ok (reprintedMembers all, rest) := by
  match all with
  | [] => exact absurd rfl hne
  | [member] =>
      simp only [printMembers] at hf ⊢
      have hr := startsIn_cons (show Mark.parenR ∈ [.comma, .parenR] by simp) rest
      have hc := ih.chain (hm member (by simp)) hr (by omega)
      obtain ⟨t, ht, hbang, -⟩ := next_of_chain_eq_ok hc
      apply members_succ_eq_ok_iff.mpr
      exact .last ht hbang hc (next_mark_of_ne (by decide) false rest)
  | member :: other :: others =>
      have htext : printMembers (member :: other :: others) ++ Mark.parenR.char :: rest =
          printSteps member ++ Mark.comma.char ::
            (printMembers (other :: others) ++ Mark.parenR.char :: rest) := by
        simp [printMembers]
      simp only [printMembers, List.length_append, List.length_cons] at hf
      have hr := startsIn_cons (show Mark.comma ∈ [.comma, .parenR] by simp)
        (printMembers (other :: others) ++ Mark.parenR.char :: rest)
      have hc := ih.chain (hm member (by simp)) hr (by omega)
      obtain ⟨t, ht, hbang, -⟩ := next_of_chain_eq_ok hc
      have hothers : ∀ m ∈ other :: others, Chain.WellFormed m :=
        fun m hmem => hm m (List.mem_cons_of_mem member hmem)
      have ho := ih.members rest (List.cons_ne_nil other others) hothers (by omega)
      rw [htext]
      apply members_succ_eq_ok_iff.mpr
      exact .more ht hbang hc (next_mark_of_ne (by decide) false _) ho

theorem readsChains (fuel : Nat) : ReadsChains fuel := by
  induction fuel with
  | zero =>
      refine ⟨?_, ?_, ?_, ?_⟩
      · intro steps rest _ _ hf
        omega
      · intro steps rest _ _ hf
        omega
      · intro step after rest hs _ _ hf
        cases step <;> simp [Step.isWildcard, Step.print] at hs hf
      · intro all rest _ _ hf
        omega
  | succ fuel ih => exact ⟨chain_print ih, link_print ih, wildcard_print ih, members_print ih⟩

end Pattern

namespace Chain

/-! ## Whole patterns -/

theorem parse_of_blank {text : String} (h : ∀ c ∈ text.toList, isBlank c = true) :
    Chain.parse text = .ok [] := by
  have hs : text.toList.dropWhile isBlank = [] := List.dropWhile_eq_nil_iff.mpr h
  have ht : Lexeme.next false text.toList = .ok ⟨.eof, [], []⟩ :=
    Lexeme.next_eq_ok_iff.mpr (.eof hs)
  exact Chain.parse_eq_ok_iff.mpr (.blank ht rfl)

theorem parse_print {chain : Chain} (h : chain.WellFormed) :
    Chain.parse chain.print = .ok chain.reprinted := by
  have htext : chain.print.toList = printSteps chain := by simp [Chain.print]
  have hend : StartsIn [.comma, .parenR] [] := Or.inl rfl
  have hc := (Pattern.readsChains (2 * (printSteps chain).length + 2)).chain h hend (by omega)
  rw [List.append_nil] at hc
  obtain ⟨t, ht, -, hne⟩ := Pattern.next_of_chain_eq_ok hc
  apply Chain.parse_eq_ok_iff.mpr
  rw [htext]
  exact .steps ht hne hc rfl rfl

/-- An accepted text is blank, and then stands for the empty chain, or it stands for a
well-formed chain. Every well-formed chain is read back from the text it is printed as, its
destructuring expressions with that text as their source. -/
theorem wellFormed_of_parse_and_parse_print :
    (∀ (text : String) (chain : Chain), Chain.parse text = .ok chain →
      (chain = [] ↔ ∀ c ∈ text.toList, isBlank c = true) ∧
        (chain ≠ [] → chain.WellFormed)) ∧
    (∀ chain : Chain, (chain ≠ [] → chain.WellFormed) →
      Chain.parse chain.print = .ok chain.reprinted) := by
  refine ⟨?_, ?_⟩
  · intro text chain h
    exact ⟨parse_eq_nil_iff h, wellFormed_of_parse h⟩
  · intro chain h
    cases chain with
    | nil => exact parse_of_blank (by simp [Chain.print, printSteps])
    | cons step rest => exact parse_print (h (List.cons_ne_nil step rest))

theorem parse_print_excluded_verbatim_and_nested_array :
    let chain : Chain := [.group true [[.verbatim "x["]],
      .destructor ⟨.array [.nested (.array [.name "k"])], ""⟩]
    chain.WellFormed ∧ chain.print = "*(![[x\\[ ]]).[ [ k]]" ∧
      Chain.parse chain.print = .ok [.group true [[.verbatim "x["]],
        .destructor ⟨.array [.nested (.array [.name "k"])], "[[k]]"⟩] := by
  intro chain
  have hkey : "k" ≠ "" := by decide
  have hverbatim : Chain.WellFormed [.verbatim "x["] := .verbatim (by decide) (absurd rfl)
  have hdestructor : Chain.WellFormed
      [.destructor ⟨.array [.nested (.array [.name "k"])], ""⟩] :=
    .destructor ⟨⟨hkey, trivial⟩, trivial⟩
  have hchain : chain.WellFormed := by
    refine .group (List.cons_ne_nil _ _) ?_ (fun _ => hdestructor)
    intro member hm
    rw [List.mem_singleton.mp hm]
    exact hverbatim
  exact ⟨hchain, by decide, wellFormed_of_parse_and_parse_print.2 chain (fun _ => hchain)⟩

end Chain

end DocPath
