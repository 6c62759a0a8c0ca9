import DocPath.Proofs.Pattern.Derivation

/-! # The run of the readers

Every phrase that has a derivation is read by its reader, given enough fuel for the text. So a text
is accepted just if it has a run, the lexemes of a derivation of it. -/

namespace DocPath

namespace Pattern

/-! ## Readers and phrases -/

/-- The reader of the phrase, given enough fuel for the text, reads it between two positions. -/
def Reads (a b : Position) : Phrase → Prop
  | .token t behind => b.inside = behind ∧ b.text.length < a.text.length ∧
      ∃ start, Lexeme.next a.inside a.text = .ok ⟨t, start, b.text⟩
  | .ahead allowed => b = a ∧ ∃ t, Lexeme.next a.inside a.text = .ok t ∧ allowed t.token
  | .slot s => a.inside = true → b.inside = true ∧
      ∀ fuel, 2 * a.text.length ≤ fuel → slot fuel a.text = .ok (s, b.text)
  | .property p => a.inside = true → b.inside = true ∧
      ∀ fuel, 2 * a.text.length ≤ fuel → property (slot fuel) p.key a.text = .ok (p, b.text)
  | .properties behind all => a.inside = true → b.inside = behind ∧
      ∀ fuel, 2 * a.text.length < fuel → properties fuel a.text = .ok (all, b.text)
  | .elements behind all => a.inside = true → b.inside = behind ∧
      ∀ fuel, 2 * a.text.length < fuel → elements fuel a.text = .ok (all, b.text)
  | .destructor d => a.inside = false → b.inside = false ∧
      ∃ m start inner, (m = .braceL ∨ m = .bracketL) ∧
        Lexeme.next false a.text = .ok ⟨.mark m, start, inner⟩ ∧
        (∀ fuel, 2 * inner.length < fuel → template fuel m inner = .ok (d.template, b.text)) ∧
        d.source = String.ofList (withoutBlanks (start.take (start.length - b.text.length)))
  | .bound n => a.inside = false → b.inside = false ∧ bound a.text = .ok (n, b.text)
  | .range bounds => a.inside = false → b.inside = false ∧ range a.text = .ok (bounds, b.text)
  | .indices all => a.inside = false → b.inside = false ∧
      ∀ fuel, a.text.length ≤ fuel → indices fuel a.text = .ok (all, b.text)
  | .option m present => a.inside = false → b.inside = false ∧
      accept m a.text = .ok (present, b.text) ∧ (present = true → b.text.length < a.text.length)
  | .chain steps => a.inside = false → b.inside = false ∧
      ∀ fuel, 2 * a.text.length ≤ fuel → chain fuel a.text = .ok (steps, b.text)
  | .link steps => a.inside = false → b.inside = false ∧
      ∀ fuel, 2 * a.text.length < fuel → link fuel a.text = .ok (steps, b.text)
  | .wildcard step => a.inside = false → b.inside = false ∧
      ∀ fuel, 2 * a.text.length < fuel → wildcard fuel a.text = .ok (step, b.text)
  | .members all => a.inside = false → b.inside = false ∧
      ∀ fuel, 2 * a.text.length < fuel → members fuel a.text = .ok (all, b.text)

/-- The phrases are read one after the other. -/
def AllRead : List Phrase → Position → Position → Prop
  | [], a, c => c = a
  | p :: phrases, a, c =>
      ∃ b : Position, b.text.length ≤ a.text.length ∧ Reads a b p ∧ AllRead phrases b c

/-- A token leaves enough fuel for what is behind it. -/
theorem exists_fuel {fuel n m : Nat} (hlt : m < n) (hf : 2 * n ≤ fuel) :
    ∃ k, fuel = k + 1 ∧ 2 * m < k :=
  ⟨fuel - 1, by omega, by omega⟩

variable {parts : List Phrase} {a b : Position}

theorem reads_slot {s : Slot} (hp : Production (.slot s) parts) (h : AllRead parts a b) :
    Reads a b (.slot s) := by
  intro ha
  cases hp with
  | slotName hne =>
      obtain ⟨c, -, ⟨hc, hlt, start, ht⟩, rfl⟩ := h
      refine ⟨hc, fun fuel hf => ?_⟩
      obtain ⟨fuel, rfl, -⟩ := exists_fuel hlt hf
      exact slot_succ_eq_ok_iff.mpr (.name (ha ▸ ht) hne)
  | slotObject =>
      obtain ⟨c, -, ⟨hc, hlt, start, ht⟩, d, -, hproperties, rfl⟩ := h
      obtain ⟨hd, hproperties⟩ := hproperties hc
      refine ⟨hd, fun fuel hf => ?_⟩
      obtain ⟨fuel, rfl, hinner⟩ := exists_fuel hlt hf
      exact slot_succ_eq_ok_iff.mpr (.object (ha ▸ ht) (hproperties fuel hinner))
  | slotArray =>
      obtain ⟨c, -, ⟨hc, hlt, start, ht⟩, d, -, helements, rfl⟩ := h
      obtain ⟨hd, helements⟩ := helements hc
      refine ⟨hd, fun fuel hf => ?_⟩
      obtain ⟨fuel, rfl, hinner⟩ := exists_fuel hlt hf
      exact slot_succ_eq_ok_iff.mpr (.array (ha ▸ ht) (helements fuel hinner))

theorem reads_property {p : Property} (hp : Production (.property p) parts)
    (h : AllRead parts a b) : Reads a b (.property p) := by
  intro ha
  cases hp with
  | plain =>
      obtain ⟨c, -, ⟨rfl, t, ht, hne⟩, rfl⟩ := h
      exact ⟨ha, fun fuel _ => property_eq_ok_iff.mpr (.plain (ha ▸ ht) hne)⟩
  | bound =>
      obtain ⟨c, -, ⟨hc, hlt, start, ht⟩, d, -, hslot, rfl⟩ := h
      obtain ⟨hd, hslot⟩ := hslot hc
      exact ⟨hd, fun fuel hf => property_eq_ok_iff.mpr (.bound (ha ▸ ht) (hslot fuel (by omega)))⟩

theorem reads_properties {behind : Bool} {all : List Property}
    (hp : Production (.properties behind all) parts) (h : AllRead parts a b) :
    Reads a b (.properties behind all) := by
  intro ha
  cases hp with
  | noProperty =>
      obtain ⟨c, -, ⟨hc, hlt, start, ht⟩, rfl⟩ := h
      refine ⟨hc, fun fuel hf => ?_⟩
      obtain ⟨fuel, rfl, -⟩ := exists_fuel hlt hf.le
      exact properties_succ_eq_ok_iff.mpr (.none (ha ▸ ht))
  | lastProperty hne =>
      obtain ⟨c, -, ⟨hc, hlt, start, ht⟩, d, -, hproperty, e, -, ⟨he, -, start', hu⟩, rfl⟩ := h
      obtain ⟨hd, hproperty⟩ := hproperty hc
      refine ⟨he, fun fuel hf => ?_⟩
      obtain ⟨fuel, rfl, hinner⟩ := exists_fuel hlt hf.le
      exact properties_succ_eq_ok_iff.mpr
        (.last (ha ▸ ht) hne (hproperty fuel hinner.le) (hd ▸ hu))
  | moreProperties hne =>
      obtain ⟨c, -, ⟨hc, hlt, start, ht⟩, d, hle, hproperty, e, hle', ⟨he, -, start', hu⟩,
        f, -, hothers, rfl⟩ := h
      obtain ⟨hd, hproperty⟩ := hproperty hc
      obtain ⟨hf', hothers⟩ := hothers he
      refine ⟨hf', fun fuel hf => ?_⟩
      obtain ⟨fuel, rfl, hinner⟩ := exists_fuel hlt hf.le
      exact properties_succ_eq_ok_iff.mpr
        (.more (ha ▸ ht) hne (hproperty fuel hinner.le) (hd ▸ hu) (hothers fuel (by omega)))

theorem reads_elements {behind : Bool} {all : List Slot}
    (hp : Production (.elements behind all) parts) (h : AllRead parts a b) :
    Reads a b (.elements behind all) := by
  intro ha
  cases hp with
  | noElement =>
      obtain ⟨c, -, ⟨hc, hlt, start, ht⟩, rfl⟩ := h
      refine ⟨hc, fun fuel hf => ?_⟩
      obtain ⟨fuel, rfl, -⟩ := exists_fuel hlt hf.le
      exact elements_succ_eq_ok_iff.mpr (.none (ha ▸ ht))
  | lastElement =>
      obtain ⟨c, hle, hslot, d, -, ⟨hd, hlt, start, ht⟩, rfl⟩ := h
      obtain ⟨hc, hslot⟩ := hslot ha
      refine ⟨hd, fun fuel hf => ?_⟩
      obtain ⟨more, rfl⟩ := Nat.exists_eq_add_of_lt hf
      exact elements_succ_eq_ok_iff.mpr (.last (hslot _ (Nat.le_add_right ..)) (hc ▸ ht))
  | moreElements =>
      obtain ⟨c, hle, hslot, d, -, ⟨hd, hlt, start, ht⟩, e, -, hothers, rfl⟩ := h
      obtain ⟨hc, hslot⟩ := hslot ha
      obtain ⟨he, hothers⟩ := hothers hd
      refine ⟨he, fun fuel hf => ?_⟩
      obtain ⟨more, rfl⟩ := Nat.exists_eq_add_of_lt hf
      exact elements_succ_eq_ok_iff.mpr
        (.more (hslot _ (Nat.le_add_right ..)) (hc ▸ ht) (hothers _ (by omega)))

theorem reads_destructor {d : Destructor} (h : AllRead d.template.phrases a b)
    (hrest : b.text <:+ a.text)
    (hsource : withoutBlanks a.text = d.source.toList ++ withoutBlanks b.text) :
    Reads a b (.destructor d) := by
  intro ha
  obtain ⟨⟨all⟩ | ⟨all⟩, source⟩ := d
  · obtain ⟨c, -, ⟨hc, hlt, start, ht⟩, e, hle, hproperties, rfl⟩ := h
    obtain ⟨hb, hproperties⟩ := hproperties hc
    rw [ha] at ht
    refine ⟨hb, _, start, c.text, .inl rfl, ht, fun fuel hf => ?_, ?_⟩
    · exact template_eq_ok_iff.mpr (.object (hproperties fuel hf))
    · exact (source_eq_iff ht (List.suffix_of_suffix_length_le hrest
        (Lexeme.suffix_of_next ht) hle)).mpr hsource
  · obtain ⟨c, -, ⟨hc, hlt, start, ht⟩, e, hle, helements, rfl⟩ := h
    obtain ⟨hb, helements⟩ := helements hc
    rw [ha] at ht
    refine ⟨hb, _, start, c.text, .inr rfl, ht, fun fuel hf => ?_, ?_⟩
    · exact template_eq_ok_iff.mpr (.array (by simp) (helements fuel hf))
    · exact (source_eq_iff ht (List.suffix_of_suffix_length_le hrest
        (Lexeme.suffix_of_next ht) hle)).mpr hsource

theorem reads_bound {n : Option Int} (hp : Production (.bound n) parts) (h : AllRead parts a b) :
    Reads a b (.bound n) := by
  intro ha
  cases hp with
  | noBound =>
      obtain ⟨c, -, ⟨rfl, t, ht, hne⟩, rfl⟩ := h
      exact ⟨ha, bound_eq_ok_iff.mpr (.none (ha ▸ ht) hne)⟩
  | someBound hn =>
      obtain ⟨c, -, ⟨hc, hlt, start, ht⟩, rfl⟩ := h
      exact ⟨hc, bound_eq_ok_iff.mpr (.some (ha ▸ ht) hn)⟩

theorem reads_range {bounds : Bounds} (hp : Production (.range bounds) parts)
    (h : AllRead parts a b) : Reads a b (.range bounds) := by
  intro ha
  cases hp with
  | span =>
      obtain ⟨c, -, hlow, d, -, ⟨hd, -, start, ht⟩, e, -, hhigh, f, -, ⟨hf, -, start', hu⟩,
        rfl⟩ := h
      obtain ⟨hc, hlow⟩ := hlow ha
      obtain ⟨he, hhigh⟩ := hhigh hd
      rw [he] at hu
      have hspan := RangeRule.span hlow (hc ▸ ht) hhigh (expect_eq_ok_iff.mpr ⟨start', hu⟩)
      exact ⟨hf, range_eq_ok_iff.mpr hspan⟩
  | single =>
      obtain ⟨c, -, hn, d, -, ⟨hd, -, start, ht⟩, rfl⟩ := h
      obtain ⟨hc, hn⟩ := hn ha
      rw [hc] at ht
      have hsingle := RangeRule.single hn ht (by simp) (expect_eq_ok_iff.mpr ⟨start, ht⟩)
      exact ⟨hd, range_eq_ok_iff.mpr hsingle⟩

theorem reads_indices {all : List String} (hp : Production (.indices all) parts)
    (h : AllRead parts a b) : Reads a b (.indices all) := by
  intro ha
  cases hp with
  | noIndex =>
      obtain ⟨c, -, ⟨rfl, t, ht, hne⟩, rfl⟩ := h
      refine ⟨ha, fun fuel _ => ?_⟩
      cases fuel with
      | zero => rfl
      | succ fuel => exact indices_succ_eq_ok_iff.mpr (.none (ha ▸ ht) hne)
  | moreIndices hne =>
      obtain ⟨c, -, ⟨hc, hlt, start, ht⟩, d, -, ⟨hd, hlt', start', hu⟩, e, -,
        ⟨he, hlt'', start'', hv⟩, f, -, hothers, rfl⟩ := h
      obtain ⟨hf, hothers⟩ := hothers he
      refine ⟨hf, fun fuel hfuel => ?_⟩
      obtain ⟨more, rfl⟩ := Nat.exists_eq_add_of_lt (Nat.lt_of_lt_of_le hlt hfuel)
      rw [hd] at hv
      have hrest := hothers (c.text.length + more) (by omega)
      exact indices_succ_eq_ok_iff.mpr
        (.more (ha ▸ ht) (hc ▸ hu) hne (expect_eq_ok_iff.mpr ⟨start'', hv⟩) hrest)

theorem reads_option {m : Mark} {present : Bool} (hp : Production (.option m present) parts)
    (h : AllRead parts a b) : Reads a b (.option m present) := by
  intro ha
  cases hp with
  | absent =>
      obtain ⟨c, -, ⟨rfl, t, ht, hne⟩, rfl⟩ := h
      exact ⟨ha, accept_eq_ok_iff.mpr (.absent (ha ▸ ht) hne), by simp⟩
  | present =>
      obtain ⟨c, -, ⟨hc, hlt, start, ht⟩, rfl⟩ := h
      exact ⟨hc, accept_eq_ok_iff.mpr (.present (ha ▸ ht)), fun _ => hlt⟩

theorem reads_wildcard {step : Step} (hp : Production (.wildcard step) parts)
    (h : AllRead parts a b) : Reads a b (.wildcard step) := by
  intro ha
  cases hp with
  | anything =>
      obtain ⟨c, -, ⟨rfl, t, ht, hparen, hbracket⟩, rfl⟩ := h
      refine ⟨ha, fun fuel hf => ?_⟩
      obtain ⟨more, rfl⟩ := Nat.exists_eq_add_of_lt hf
      exact wildcard_succ_eq_ok_iff.mpr (.any (ha ▸ ht) hparen hbracket)
  | ranged =>
      obtain ⟨c, -, ⟨hc, hlt, start, ht⟩, d, -, hrange, rfl⟩ := h
      obtain ⟨hd, hrange⟩ := hrange hc
      refine ⟨hd, fun fuel hf => ?_⟩
      obtain ⟨more, rfl⟩ := Nat.exists_eq_add_of_lt hf
      exact wildcard_succ_eq_ok_iff.mpr (.range (ha ▸ ht) hrange)
  | group =>
      obtain ⟨c, -, ⟨hc, hlt, start, ht⟩, d, hle, hexclude, e, -, hmembers, rfl⟩ := h
      obtain ⟨hd, hexclude, -⟩ := hexclude hc
      obtain ⟨he, hmembers⟩ := hmembers hd
      refine ⟨he, fun fuel hf => ?_⟩
      obtain ⟨fuel, rfl, hinner⟩ := exists_fuel hlt hf.le
      exact wildcard_succ_eq_ok_iff.mpr (.group (ha ▸ ht) hexclude (hmembers fuel (by omega)))

theorem reads_members {all : List Chain} (hp : Production (.members all) parts)
    (h : AllRead parts a b) : Reads a b (.members all) := by
  intro ha
  cases hp with
  | lastMember =>
      obtain ⟨c, -, hmember, d, -, ⟨hd, -, start, hu⟩, rfl⟩ := h
      obtain ⟨hc, hmember⟩ := hmember ha
      refine ⟨hd, fun fuel hf => ?_⟩
      obtain ⟨more, rfl⟩ := Nat.exists_eq_add_of_lt hf
      have hchain := hmember _ (Nat.le_add_right _ more)
      obtain ⟨t, ht, hbang, -⟩ := next_of_chain_eq_ok hchain
      exact members_succ_eq_ok_iff.mpr (.last ht hbang hchain (hc ▸ hu))
  | moreMembers =>
      obtain ⟨c, hle, hmember, d, -, ⟨hd, hlt, start, hu⟩, e, -, hothers, rfl⟩ := h
      obtain ⟨hc, hmember⟩ := hmember ha
      obtain ⟨he, hothers⟩ := hothers hd
      refine ⟨he, fun fuel hf => ?_⟩
      obtain ⟨more, rfl⟩ := Nat.exists_eq_add_of_lt hf
      have hchain := hmember _ (Nat.le_add_right _ more)
      obtain ⟨t, ht, hbang, -⟩ := next_of_chain_eq_ok hchain
      exact members_succ_eq_ok_iff.mpr
        (.more ht hbang hchain (hc ▸ hu) (hothers _ (by omega)))

theorem reads_link {steps : Chain} (hp : Production (.link steps) parts)
    (h : AllRead parts a b) : Reads a b (.link steps) := by
  intro ha
  cases hp with
  | lastStep =>
      obtain ⟨c, -, hdot, rfl⟩ := h
      obtain ⟨hc, hdot, -⟩ := hdot ha
      refine ⟨hc, fun fuel hf => ?_⟩
      obtain ⟨more, rfl⟩ := Nat.exists_eq_add_of_lt hf
      exact link_succ_eq_ok_iff.mpr (.none hdot)
  | moreSteps =>
      obtain ⟨c, -, hdot, d, -, hsteps, rfl⟩ := h
      obtain ⟨hc, hdot, hlt⟩ := hdot ha
      obtain ⟨hd, hsteps⟩ := hsteps hc
      refine ⟨hd, fun fuel hf => ?_⟩
      obtain ⟨fuel, rfl, hinner⟩ := exists_fuel (hlt rfl) hf.le
      exact link_succ_eq_ok_iff.mpr (.some hdot (hsteps fuel hinner.le))

theorem reads_chain {steps : Chain} (hp : Production (.chain steps) parts)
    (h : AllRead parts a b) : Reads a b (.chain steps) := by
  intro ha
  generalize hphrase : Phrase.chain steps = p at hp
  cases hp with
  | name hne =>
      cases hphrase
      obtain ⟨c, -, ⟨hc, hlt, start, ht⟩, d, hle, hindices, e, hle', htilde, f, -, hafter, rfl⟩ := h
      obtain ⟨hd, hindices⟩ := hindices hc
      obtain ⟨he, htilde, -⟩ := htilde hd
      obtain ⟨hf', hafter⟩ := hafter he
      refine ⟨hf', fun fuel hf => ?_⟩
      obtain ⟨fuel, rfl, hinner⟩ := exists_fuel hlt hf
      exact chain_succ_eq_ok_iff.mpr
        (.name (ha ▸ ht) hne (hindices fuel (by omega)) htilde (hafter fuel (by omega)))
  | verbatim =>
      cases hphrase
      obtain ⟨c, -, ⟨hc, hlt, start, ht⟩, d, -, hafter, rfl⟩ := h
      obtain ⟨hd, hafter⟩ := hafter hc
      refine ⟨hd, fun fuel hf => ?_⟩
      obtain ⟨fuel, rfl, hinner⟩ := exists_fuel hlt hf
      exact chain_succ_eq_ok_iff.mpr (.verbatim (ha ▸ ht) (hafter fuel hinner))
  | wildcard =>
      cases hphrase
      obtain ⟨c, -, ⟨hc, hlt, start, ht⟩, d, hle, hstep, e, -, hafter, rfl⟩ := h
      obtain ⟨hd, hstep⟩ := hstep hc
      obtain ⟨he, hafter⟩ := hafter hd
      refine ⟨he, fun fuel hf => ?_⟩
      obtain ⟨fuel, rfl, hinner⟩ := exists_fuel hlt hf
      exact chain_succ_eq_ok_iff.mpr
        (.wildcard (ha ▸ ht) (hstep fuel hinner) (hafter fuel (by omega)))
  | @destructor d =>
      cases hphrase
      obtain ⟨c, -, hdestructor, _, -, ⟨rfl, t, hu, hne⟩, rfl⟩ := h
      obtain ⟨hc, m, start, inner, hm, ht, hshape, hsource⟩ := hdestructor ha
      refine ⟨hc, fun fuel hf => ?_⟩
      obtain ⟨fuel, rfl, hinner⟩ := exists_fuel (Lexeme.length_lt_of_next ht (by simp)) hf
      have hread : destructor fuel ⟨.mark m, start, inner⟩ m = .ok (d, b.text) :=
        destructor_eq_ok_iff.mpr ⟨hshape fuel hinner, ⟨t, hc ▸ hu, hne⟩, hsource⟩
      exact chain_succ_eq_ok_iff.mpr (.destructor ht hm hread)
  | _ => cases hphrase

theorem Production.reads {p : Phrase} (hp : Production p parts) (h : AllRead parts a b) :
    Reads a b p := by
  cases p with
  | token | ahead | destructor => cases hp
  | slot => exact reads_slot hp h
  | property => exact reads_property hp h
  | properties => exact reads_properties hp h
  | elements => exact reads_elements hp h
  | bound => exact reads_bound hp h
  | range => exact reads_range hp h
  | indices => exact reads_indices hp h
  | option => exact reads_option hp h
  | chain => exact reads_chain hp h
  | link => exact reads_link hp h
  | wildcard => exact reads_wildcard hp h
  | members => exact reads_members hp h

theorem Derivation.allRead {phrases : List Phrase} {run : List Lexeme} {a b : Position}
    (h : Derivation phrases a run b) : AllRead phrases a b := by
  induction h with
  | nil => rfl
  | token ht hne h ih =>
      have hlt := Lexeme.length_lt_of_next ht hne
      exact ⟨_, hlt.le, ⟨rfl, hlt, _, ht⟩, ih⟩
  | ahead ht hallowed _ ih => exact ⟨_, le_rfl, ⟨rfl, _, ht, hallowed⟩, ih⟩
  | phrase hp hparts _ ihParts ih =>
      exact ⟨_, hparts.suffix.length_le, hp.reads ihParts, ih⟩
  | destructor hparts hsource _ ihParts ih =>
      have hrest := hparts.suffix
      exact ⟨_, hrest.length_le, reads_destructor ihParts hrest hsource, ih⟩

end Pattern

/-! ## Whole patterns -/

namespace Chain

/-- The lexemes that the readers take one after the other from a text that is this chain. -/
inductive Run (text : List Char) : List Lexeme → Chain → Prop where
  | blank : (∀ c ∈ text, isBlank c = true) → Run text [] []
  | steps {steps run} {rest : List Char} :
      Pattern.Derivation [.chain steps] ⟨false, text⟩ run ⟨false, rest⟩ →
      (∀ c ∈ rest, isBlank c = true) → Run text run steps

/-- A text is accepted just if the grammar has a derivation for it, and stands for the chain that
is derived. -/
theorem parse_eq_ok_iff_exists_run {text : String} {chain : Chain} :
    Chain.parse text = .ok chain ↔ ∃ run, Run text.toList run chain := by
  have hend {rest : List Char} (hblank : ∀ c ∈ rest, isBlank c = true) :
      Lexeme.next false rest = .ok ⟨.eof, [], []⟩ :=
    Lexeme.next_eq_ok_iff.mpr (.eof (List.dropWhile_eq_nil_iff.mpr hblank))
  rw [parse_eq_ok_iff]
  constructor
  · intro h
    cases h with
    | blank ht he => exact ⟨[], .blank ((Lexeme.token_eq_eof_iff ht).mp he)⟩
    | steps ht hne hc hu he =>
        obtain ⟨run, hrun⟩ := (Pattern.derives_chain _).1 (by omega) hc
        exact ⟨run, .steps hrun ((Lexeme.token_eq_eof_iff hu).mp he)⟩
  · rintro ⟨run, hrun⟩
    cases hrun with
    | blank hblank => exact .blank (hend hblank) rfl
    | steps hrun hblank =>
        obtain ⟨b, -, hread, rfl⟩ := hrun.allRead
        obtain ⟨-, hread⟩ := hread rfl
        have hchain := hread (2 * text.toList.length + 2) (by simp)
        obtain ⟨t, ht, -, hne⟩ := Pattern.next_of_chain_eq_ok hchain
        exact .steps ht hne hchain (hend hblank) rfl

end Chain

end DocPath
