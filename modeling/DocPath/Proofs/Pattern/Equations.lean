import DocPath.Pattern.Parser

/-! # What the readers of patterns can do

For each reader the rules by which it succeeds. The rules of a reader with fuel mention the
readers that it calls at one unit less. -/

namespace DocPath

/-! ## Results -/

theorem bind_eq_ok_iff {ε α β : Type} {x : Except ε α} {f : α → Except ε β} {b : β} :
    (x >>= f) = .ok b ↔ ∃ a, x = .ok a ∧ f a = .ok b := by
  cases x with
  | error e =>
      constructor
      · intro h
        cases h
      · intro h
        obtain ⟨a, h, -⟩ := h
        cases h
  | ok a =>
      constructor
      · intro h
        exact ⟨a, rfl, h⟩
      · intro h
        obtain ⟨a', h, h'⟩ := h
        cases h
        exact h'

theorem pure_eq_ok_iff {ε α : Type} {a b : α} : (pure a : Except ε α) = .ok b ↔ a = b :=
  Except.ok.injEq a b ▸ Iff.rfl

theorem throw_eq_ok_iff {ε α : Type} {e : ε} {b : α} :
    (throw e : Except ε α) = .ok b ↔ False := by
  constructor
  · intro h
    cases h
  · exact False.elim

/-! ## Lexemes -/

inductive Lexeme.Rule (inside : Bool) (text : List Char) : Lexeme → Prop where
  | eof : text.dropWhile isBlank = [] → Rule inside text ⟨.eof, [], []⟩
  | name {c rest name after} : text.dropWhile isBlank = c :: rest → Mark.ofChar? c = none →
      readName (c :: rest) = (name, after) →
      Rule inside text ⟨.name (String.ofList name), c :: rest, after⟩
  | verbatim {inner body after} : inside = false →
      text.dropWhile isBlank = '[' :: '[' :: inner → readVerbatim inner = some (body, after) →
      Rule inside text ⟨.verbatim (String.ofList body), '[' :: '[' :: inner, after⟩
  | mark {m : Mark} {rest} : text.dropWhile isBlank = m.char :: rest →
      (m = .bracketL → inside = false → rest.head? ≠ some '[') →
      Rule inside text ⟨.mark m, m.char :: rest, rest⟩

theorem Lexeme.next_eq_ok_iff {inside : Bool} {text : List Char} {t : Lexeme} :
    Lexeme.next inside text = .ok t ↔ Lexeme.Rule inside text t := by
  simp only [Lexeme.next]
  constructor
  · intro h
    split at h
    · rename_i hs
      cases h
      exact .eof hs
    · rename_i c rest hs
      split at h
      · rename_i hm
        cases h
        rw [hs]
        exact .name hs hm rfl
      · rename_i hm
        obtain rfl : c = '[' := Mark.ofChar?_eq_some_iff.mp hm
        split at h
        · split at h
          · rename_i hv
            cases h
            rw [hs]
            exact .verbatim rfl hs hv
          · cases h
        · rename_i hne
          cases h
          rw [hs]
          refine .mark (m := .bracketL) hs fun _ hi hh => ?_
          obtain ⟨body, rfl⟩ := List.head?_eq_some_iff.mp hh
          exact hne body hi rfl
      · rename_i m hne hm
        obtain rfl : c = m.char := Mark.ofChar?_eq_some_iff.mp hm
        cases h
        rw [hs]
        exact .mark hs fun hb => absurd hb hne
  · intro hrule
    cases hrule with
    | eof hs => rw [hs]
    | name hs hm hr =>
        rw [hs]
        simp only [hm, hr]
    | verbatim hi hs hv =>
        have hm : Mark.ofChar? '[' = some .bracketL := Mark.ofChar?_char .bracketL
        rw [hs, hi]
        simp only [hm, hv]
    | @mark m rest hs hb =>
        rw [hs]
        simp only [Mark.ofChar?_char]
        split
        · cases m
          all_goals contradiction
        · rename_i hm
          obtain rfl : m = .bracketL := Option.some.inj hm
          split
          · exact absurd rfl (hb rfl rfl)
          · rfl
        · rename_i m' _ hm
          obtain rfl : m = m' := Option.some.inj hm
          rfl

namespace Pattern

/-! ## Single tokens -/

theorem expect_eq_ok_iff {inside : Bool} {m : Mark} {expected : Expected} {text rest : List Char} :
    expect inside m expected text = .ok rest ↔
      ∃ start, Lexeme.next inside text = .ok ⟨.mark m, start, rest⟩ := by
  simp only [expect, bind_eq_ok_iff]
  constructor
  · intro hread
    obtain ⟨⟨token, start, after⟩, ht, h⟩ := hread
    by_cases hm : token = .mark m
    · rw [if_pos hm, pure_eq_ok_iff] at h
      subst hm h
      exact ⟨start, ht⟩
    · rw [if_neg hm, throw_eq_ok_iff] at h
      exact h.elim
  · intro hread
    obtain ⟨start, ht⟩ := hread
    exact ⟨_, ht, if_pos rfl⟩

inductive AcceptRule (m : Mark) (text : List Char) : Bool → List Char → Prop where
  | present {start rest} : Lexeme.next false text = .ok ⟨.mark m, start, rest⟩ →
      AcceptRule m text true rest
  | absent {t} : Lexeme.next false text = .ok t → t.token ≠ .mark m → AcceptRule m text false text

theorem accept_eq_ok_iff {m : Mark} {text rest : List Char} {b : Bool} :
    accept m text = .ok (b, rest) ↔ AcceptRule m text b rest := by
  simp only [accept, bind_eq_ok_iff]
  constructor
  · intro hread
    obtain ⟨⟨token, start, after⟩, ht, h⟩ := hread
    by_cases hm : token = .mark m
    · rw [if_pos hm, pure_eq_ok_iff] at h
      cases h
      subst hm
      exact .present ht
    · rw [if_neg hm, pure_eq_ok_iff] at h
      cases h
      exact .absent ht hm
  · intro hrule
    cases hrule with
    | present ht => exact ⟨_, ht, if_pos rfl⟩
    | absent ht hm => exact ⟨_, ht, if_neg hm⟩

/-! ## Templates -/

inductive SlotRule (fuel : Nat) (text : List Char) : Slot → List Char → Prop where
  | name {name start rest} : Lexeme.next true text = .ok ⟨.name name, start, rest⟩ →
      name ≠ "" → SlotRule fuel text (.name name) rest
  | object {start inner members rest} :
      Lexeme.next true text = .ok ⟨.mark .braceL, start, inner⟩ →
      properties fuel inner = .ok (members, rest) →
      SlotRule fuel text (.nested (.object members)) rest
  | array {start inner members rest} :
      Lexeme.next true text = .ok ⟨.mark .bracketL, start, inner⟩ →
      elements fuel inner = .ok (members, rest) →
      SlotRule fuel text (.nested (.array members)) rest

theorem slot_succ_eq_ok_iff {fuel : Nat} {text rest : List Char} {s : Slot} :
    slot (fuel + 1) text = .ok (s, rest) ↔ SlotRule fuel text s rest := by
  simp only [slot, bind_eq_ok_iff]
  constructor
  · intro hread
    obtain ⟨⟨token, start, after⟩, ht, h⟩ := hread
    simp only at h
    split at h
    · rename_i name
      split at h
      · cases h
      · rename_i hne
        cases h
        exact .name ht (by simpa using hne)
    · obtain ⟨members, hm, h⟩ := bind_eq_ok_iff.mp h
      cases h
      exact .object ht hm
    · obtain ⟨members, hm, h⟩ := bind_eq_ok_iff.mp h
      cases h
      exact .array ht hm
    · cases h
  · intro hrule
    cases hrule with
    | name ht hne => exact ⟨_, ht, if_neg (by simpa using hne)⟩
    | object ht hm => exact ⟨_, ht, bind_eq_ok_iff.mpr ⟨_, hm, rfl⟩⟩
    | array ht hm => exact ⟨_, ht, bind_eq_ok_iff.mpr ⟨_, hm, rfl⟩⟩

inductive PropertyRule (fuel : Nat) (key : String) (text : List Char) :
    Property → List Char → Prop where
  | plain {t} : Lexeme.next true text = .ok t → t.token ≠ .mark .colon →
      PropertyRule fuel key text (.plain key) text
  | bound {start inner value rest} :
      Lexeme.next true text = .ok ⟨.mark .colon, start, inner⟩ →
      slot fuel inner = .ok (value, rest) → PropertyRule fuel key text (.bound key value) rest

theorem property_eq_ok_iff {fuel : Nat} {key : String} {text rest : List Char} {p : Property} :
    property (slot fuel) key text = .ok (p, rest) ↔ PropertyRule fuel key text p rest := by
  simp only [property, bind_eq_ok_iff]
  constructor
  · intro hread
    obtain ⟨⟨token, start, after⟩, ht, h⟩ := hread
    by_cases hc : token = .mark .colon
    · rw [if_pos hc] at h
      obtain ⟨⟨value, rest'⟩, hs, h⟩ := bind_eq_ok_iff.mp h
      cases h
      subst hc
      exact .bound ht hs
    · rw [if_neg hc] at h
      cases h
      exact .plain ht hc
  · intro hrule
    cases hrule with
    | plain ht hc => exact ⟨_, ht, if_neg hc⟩
    | bound ht hs => exact ⟨_, ht, (if_pos rfl).trans (bind_eq_ok_iff.mpr ⟨_, hs, rfl⟩)⟩

inductive PropertiesRule (fuel : Nat) (text : List Char) : List Property → List Char → Prop where
  | none {start rest} : Lexeme.next true text = .ok ⟨.mark .braceR, start, rest⟩ →
      PropertiesRule fuel text [] rest
  | last {key start inner p after start' rest} :
      Lexeme.next true text = .ok ⟨.name key, start, inner⟩ → key ≠ "" →
      property (slot fuel) key inner = .ok (p, after) →
      Lexeme.next true after = .ok ⟨.mark .braceR, start', rest⟩ →
      PropertiesRule fuel text [p] rest
  | more {key start inner p after start' inner' others rest} :
      Lexeme.next true text = .ok ⟨.name key, start, inner⟩ → key ≠ "" →
      property (slot fuel) key inner = .ok (p, after) →
      Lexeme.next true after = .ok ⟨.mark .comma, start', inner'⟩ →
      properties fuel inner' = .ok (others, rest) →
      PropertiesRule fuel text (p :: others) rest

theorem properties_succ_eq_ok_iff {fuel : Nat} {text rest : List Char} {all : List Property} :
    properties (fuel + 1) text = .ok (all, rest) ↔ PropertiesRule fuel text all rest := by
  simp only [properties, bind_eq_ok_iff]
  constructor
  · intro hread
    obtain ⟨⟨token, start, inner⟩, ht, h⟩ := hread
    simp only at h
    split at h
    · cases h
      exact .none ht
    · split at h
      · cases h
      · rename_i hne
        obtain ⟨⟨p, after⟩, hp, h⟩ := bind_eq_ok_iff.mp h
        obtain ⟨⟨token', start', inner'⟩, hu, h⟩ := bind_eq_ok_iff.mp h
        simp only at h
        split at h
        · obtain ⟨⟨others, rest'⟩, ho, h⟩ := bind_eq_ok_iff.mp h
          cases h
          exact .more ht (by simpa using hne) hp hu ho
        · cases h
          exact .last ht (by simpa using hne) hp hu
        · cases h
    · cases h
  · intro hrule
    cases hrule with
    | none ht => exact ⟨_, ht, rfl⟩
    | last ht hne hp hu =>
        refine ⟨_, ht, (if_neg (by simpa using hne)).trans ?_⟩
        exact bind_eq_ok_iff.mpr ⟨_, hp, bind_eq_ok_iff.mpr ⟨_, hu, rfl⟩⟩
    | more ht hne hp hu ho =>
        refine ⟨_, ht, (if_neg (by simpa using hne)).trans ?_⟩
        refine bind_eq_ok_iff.mpr ⟨_, hp, bind_eq_ok_iff.mpr ⟨_, hu, ?_⟩⟩
        exact bind_eq_ok_iff.mpr ⟨_, ho, rfl⟩

/-- No slot starts with the bracket that ends an array. -/
theorem next_of_slot_eq_ok {fuel : Nat} {text rest : List Char} {s : Slot}
    (h : slot fuel text = .ok (s, rest)) :
    ∃ t, Lexeme.next true text = .ok t ∧ t.token ≠ .mark .bracketR := by
  cases fuel with
  | zero => cases h
  | succ fuel =>
      cases slot_succ_eq_ok_iff.mp h with
      | name ht => exact ⟨_, ht, by simp⟩
      | object ht => exact ⟨_, ht, by simp⟩
      | array ht => exact ⟨_, ht, by simp⟩

inductive ElementsRule (fuel : Nat) (text : List Char) : List Slot → List Char → Prop where
  | none {start rest} : Lexeme.next true text = .ok ⟨.mark .bracketR, start, rest⟩ →
      ElementsRule fuel text [] rest
  | last {s after start rest} : slot fuel text = .ok (s, after) →
      Lexeme.next true after = .ok ⟨.mark .bracketR, start, rest⟩ →
      ElementsRule fuel text [s] rest
  | more {s after start inner others rest} : slot fuel text = .ok (s, after) →
      Lexeme.next true after = .ok ⟨.mark .comma, start, inner⟩ →
      elements fuel inner = .ok (others, rest) → ElementsRule fuel text (s :: others) rest

theorem elements_succ_eq_ok_iff {fuel : Nat} {text rest : List Char} {all : List Slot} :
    elements (fuel + 1) text = .ok (all, rest) ↔ ElementsRule fuel text all rest := by
  simp only [elements, bind_eq_ok_iff]
  constructor
  · intro hread
    obtain ⟨⟨token, start, inner⟩, ht, h⟩ := hread
    simp only at h
    split at h
    · rename_i hm
      cases h
      exact .none (hm ▸ ht)
    · obtain ⟨⟨s, after⟩, hs, h⟩ := bind_eq_ok_iff.mp h
      obtain ⟨⟨token', start', inner'⟩, hu, h⟩ := bind_eq_ok_iff.mp h
      simp only at h
      split at h
      · obtain ⟨⟨others, rest'⟩, ho, h⟩ := bind_eq_ok_iff.mp h
        cases h
        exact .more hs hu ho
      · cases h
        exact .last hs hu
      · cases h
  · intro hrule
    cases hrule with
    | none ht => exact ⟨_, ht, if_pos rfl⟩
    | last hs hu =>
        obtain ⟨t, ht, hne⟩ := next_of_slot_eq_ok hs
        refine ⟨t, ht, (if_neg hne).trans ?_⟩
        exact bind_eq_ok_iff.mpr ⟨_, hs, bind_eq_ok_iff.mpr ⟨_, hu, rfl⟩⟩
    | more hs hu ho =>
        obtain ⟨t, ht, hne⟩ := next_of_slot_eq_ok hs
        refine ⟨t, ht, (if_neg hne).trans ?_⟩
        refine bind_eq_ok_iff.mpr ⟨_, hs, bind_eq_ok_iff.mpr ⟨_, hu, ?_⟩⟩
        exact bind_eq_ok_iff.mpr ⟨_, ho, rfl⟩

inductive TemplateRule (fuel : Nat) (text : List Char) :
    Mark → Template → List Char → Prop where
  | object {members rest} : properties fuel text = .ok (members, rest) →
      TemplateRule fuel text .braceL (.object members) rest
  | array {m members rest} : m ≠ .braceL → elements fuel text = .ok (members, rest) →
      TemplateRule fuel text m (.array members) rest

theorem template_eq_ok_iff {fuel : Nat} {m : Mark} {text rest : List Char} {shape : Template} :
    template fuel m text = .ok (shape, rest) ↔ TemplateRule fuel text m shape rest := by
  unfold template
  constructor
  · intro h
    by_cases hm : m = .braceL
    · rw [if_pos hm] at h
      obtain ⟨⟨members, rest'⟩, hp, h⟩ := bind_eq_ok_iff.mp h
      cases h
      subst hm
      exact .object hp
    · rw [if_neg hm] at h
      obtain ⟨⟨members, rest'⟩, he, h⟩ := bind_eq_ok_iff.mp h
      cases h
      exact .array hm he
  · intro hrule
    cases hrule with
    | object hp => exact (if_pos rfl).trans (bind_eq_ok_iff.mpr ⟨_, hp, rfl⟩)
    | array hm he => exact (if_neg hm).trans (bind_eq_ok_iff.mpr ⟨_, he, rfl⟩)

theorem destructor_eq_ok_iff {fuel : Nat} {opening : Lexeme} {m : Mark} {rest : List Char}
    {d : Destructor} :
    destructor fuel opening m = .ok (d, rest) ↔
      template fuel m opening.rest = .ok (d.template, rest) ∧
      (∃ t, Lexeme.next false rest = .ok t ∧ t.token ≠ .mark .dot) ∧
      d.source = String.ofList
        (withoutBlanks (opening.start.take (opening.start.length - rest.length))) := by
  simp only [destructor, bind_eq_ok_iff]
  constructor
  · intro hread
    obtain ⟨⟨shape, rest'⟩, hs, t, ht, h⟩ := hread
    by_cases hd : t.token = .mark .dot
    · rw [if_pos hd] at h
      cases h
    · rw [if_neg hd] at h
      cases h
      exact ⟨hs, ⟨t, ht, hd⟩, rfl⟩
  · intro hread
    obtain ⟨hs, ⟨t, ht, hd⟩, hsource⟩ := hread
    refine ⟨_, hs, t, ht, (if_neg hd).trans ?_⟩
    obtain ⟨shape, source⟩ := d
    subst hsource
    rfl

/-! ## Ranges and indices -/

inductive BoundRule (text : List Char) : Option Int → List Char → Prop where
  | none {t} : Lexeme.next false text = .ok t → (∀ digits, t.token ≠ .name digits) →
      BoundRule text none text
  | some {digits start n rest} : Lexeme.next false text = .ok ⟨.name digits, start, rest⟩ →
      Numeral.signedWord? digits.toList = some n → BoundRule text (some n) rest

theorem bound_eq_ok_iff {text rest : List Char} {b : Option Int} :
    bound text = .ok (b, rest) ↔ BoundRule text b rest := by
  simp only [bound, bind_eq_ok_iff]
  constructor
  · intro hread
    obtain ⟨⟨token, start, after⟩, ht, h⟩ := hread
    simp only at h
    split at h
    · split at h
      · rename_i hn
        cases h
        exact .some ht hn
      · cases h
    · rename_i hne
      cases h
      exact .none ht hne
  · intro hrule
    cases hrule with
    | none ht hne =>
        refine ⟨_, ht, ?_⟩
        split
        · rename_i hd
          exact absurd hd (hne _)
        · rfl
    | some ht hn =>
        refine ⟨_, ht, ?_⟩
        simp only [hn]
        rfl

inductive RangeRule (text : List Char) : Bounds → List Char → Prop where
  | span {low start inner high after rest} {between : List Char} :
      bound text = .ok (low, between) →
      Lexeme.next false between = .ok ⟨.mark .colon, start, inner⟩ →
      bound inner = .ok (high, after) →
      expect false .bracketR .closingBracket after = .ok rest →
      RangeRule text ⟨low, high⟩ rest
  | single {n t rest} {between : List Char} : bound text = .ok (some n, between) →
      Lexeme.next false between = .ok t → t.token ≠ .mark .colon →
      expect false .bracketR .closingBracket between = .ok rest →
      RangeRule text ⟨some n, some n⟩ rest

theorem range_eq_ok_iff {text rest : List Char} {b : Bounds} :
    range text = .ok (b, rest) ↔ RangeRule text b rest := by
  simp only [range, bind_eq_ok_iff]
  constructor
  · intro hread
    obtain ⟨⟨low, between⟩, hl, ⟨token, start, inner⟩, ht, h⟩ := hread
    simp only at ht h
    by_cases hc : token = .mark .colon
    · rw [if_pos hc] at h
      obtain ⟨⟨high, after⟩, hh, h⟩ := bind_eq_ok_iff.mp h
      obtain ⟨rest', he, h⟩ := bind_eq_ok_iff.mp h
      cases h
      subst hc
      exact .span hl ht hh he
    · rw [if_neg hc] at h
      cases low with
      | none =>
          simp only [Option.isSome_none, Bool.false_eq_true, if_false] at h
          split at h <;> cases h
      | some n =>
          obtain ⟨rest', he, h⟩ := bind_eq_ok_iff.mp h
          cases h
          exact .single hl ht hc he
  · intro hrule
    cases hrule with
    | span hl ht hh he =>
        refine ⟨_, hl, _, ht, (if_pos rfl).trans ?_⟩
        exact bind_eq_ok_iff.mpr ⟨_, hh, bind_eq_ok_iff.mpr ⟨_, he, rfl⟩⟩
    | single hl ht hc he =>
        refine ⟨_, hl, _, ht, (if_neg hc).trans ?_⟩
        exact bind_eq_ok_iff.mpr ⟨_, he, rfl⟩

inductive IndicesRule (fuel : Nat) (text : List Char) : List String → List Char → Prop where
  | none {t} : Lexeme.next false text = .ok t → t.token ≠ .mark .bracketL →
      IndicesRule fuel text [] text
  | more {start inner index start' inner' after others rest} :
      Lexeme.next false text = .ok ⟨.mark .bracketL, start, inner⟩ →
      Lexeme.next false inner = .ok ⟨.name index, start', inner'⟩ → index ≠ "" →
      expect false .bracketR .closingBracket inner' = .ok after →
      indices fuel after = .ok (others, rest) → IndicesRule fuel text (index :: others) rest

theorem indices_succ_eq_ok_iff {fuel : Nat} {text rest : List Char} {all : List String} :
    indices (fuel + 1) text = .ok (all, rest) ↔ IndicesRule fuel text all rest := by
  simp only [indices, bind_eq_ok_iff]
  constructor
  · intro hread
    obtain ⟨⟨token, start, inner⟩, ht, h⟩ := hread
    by_cases hb : token = .mark .bracketL
    · rw [if_pos hb] at h
      obtain ⟨⟨token', start', inner'⟩, hu, h⟩ := bind_eq_ok_iff.mp h
      simp only at hu h
      split at h
      · split at h
        · cases h
        · rename_i hne
          obtain ⟨after, he, h⟩ := bind_eq_ok_iff.mp h
          obtain ⟨⟨others, rest'⟩, ho, h⟩ := bind_eq_ok_iff.mp h
          cases h
          subst hb
          exact .more ht hu (by simpa using hne) he ho
      · cases h
    · rw [if_neg hb] at h
      cases h
      exact .none ht hb
  · intro hrule
    cases hrule with
    | none ht hb => exact ⟨_, ht, if_neg hb⟩
    | more ht hu hne he ho =>
        refine ⟨_, ht, (if_pos rfl).trans (bind_eq_ok_iff.mpr ⟨_, hu, ?_⟩)⟩
        refine (if_neg (by simpa using hne)).trans (bind_eq_ok_iff.mpr ⟨_, he, ?_⟩)
        exact bind_eq_ok_iff.mpr ⟨_, ho, rfl⟩

/-! ## Chains -/

inductive ChainRule (fuel : Nat) (text : List Char) : Chain → List Char → Prop where
  | name {name start inner indices' after expand after' others rest} :
      Lexeme.next false text = .ok ⟨.name name, start, inner⟩ → name ≠ "" →
      indices fuel inner = .ok (indices', after) → accept .tilde after = .ok (expand, after') →
      link fuel after' = .ok (others, rest) →
      ChainRule fuel text (nameSteps false name indices' expand ++ others) rest
  | verbatim {body start inner others rest} :
      Lexeme.next false text = .ok ⟨.verbatim body, start, inner⟩ →
      link fuel inner = .ok (others, rest) →
      ChainRule fuel text (.verbatim (stripBlanks body) :: others) rest
  | wildcard {start inner step after others rest} :
      Lexeme.next false text = .ok ⟨.mark .star, start, inner⟩ →
      wildcard fuel inner = .ok (step, after) → link fuel after = .ok (others, rest) →
      ChainRule fuel text (step :: others) rest
  | destructor {m start inner d rest} :
      Lexeme.next false text = .ok ⟨.mark m, start, inner⟩ → m = .braceL ∨ m = .bracketL →
      destructor fuel ⟨.mark m, start, inner⟩ m = .ok (d, rest) →
      ChainRule fuel text [.destructor d] rest

theorem chain_succ_eq_ok_iff {fuel : Nat} {text rest : List Char} {steps : Chain} :
    chain (fuel + 1) text = .ok (steps, rest) ↔ ChainRule fuel text steps rest := by
  simp only [chain, bind_eq_ok_iff]
  constructor
  · intro hread
    obtain ⟨⟨token, start, inner⟩, ht, h⟩ := hread
    simp only at h
    split at h
    · split at h
      · cases h
      · rename_i hne
        obtain ⟨⟨indices', after⟩, hi, h⟩ := bind_eq_ok_iff.mp h
        obtain ⟨⟨expand, after'⟩, ha, h⟩ := bind_eq_ok_iff.mp h
        obtain ⟨⟨others, rest'⟩, hl, h⟩ := bind_eq_ok_iff.mp h
        cases h
        exact .name ht (by simpa using hne) hi ha hl
    · obtain ⟨⟨others, rest'⟩, hl, h⟩ := bind_eq_ok_iff.mp h
      cases h
      exact .verbatim ht hl
    · obtain ⟨⟨step, after⟩, hw, h⟩ := bind_eq_ok_iff.mp h
      obtain ⟨⟨others, rest'⟩, hl, h⟩ := bind_eq_ok_iff.mp h
      cases h
      exact .wildcard ht hw hl
    · obtain ⟨⟨d, rest'⟩, hd, h⟩ := bind_eq_ok_iff.mp h
      cases h
      exact .destructor ht (Or.inl rfl) hd
    · obtain ⟨⟨d, rest'⟩, hd, h⟩ := bind_eq_ok_iff.mp h
      cases h
      exact .destructor ht (Or.inr rfl) hd
    · cases h
  · intro hrule
    cases hrule with
    | name ht hne hi ha hl =>
        refine ⟨_, ht, (if_neg (by simpa using hne)).trans (bind_eq_ok_iff.mpr ⟨_, hi, ?_⟩)⟩
        exact bind_eq_ok_iff.mpr ⟨_, ha, bind_eq_ok_iff.mpr ⟨_, hl, rfl⟩⟩
    | verbatim ht hl => exact ⟨_, ht, bind_eq_ok_iff.mpr ⟨_, hl, rfl⟩⟩
    | wildcard ht hw hl =>
        exact ⟨_, ht, bind_eq_ok_iff.mpr ⟨_, hw, bind_eq_ok_iff.mpr ⟨_, hl, rfl⟩⟩⟩
    | destructor ht hm hd =>
        rcases hm with rfl | rfl
        · exact ⟨_, ht, bind_eq_ok_iff.mpr ⟨_, hd, rfl⟩⟩
        · exact ⟨_, ht, bind_eq_ok_iff.mpr ⟨_, hd, rfl⟩⟩

inductive LinkRule (fuel : Nat) (text : List Char) : Chain → List Char → Prop where
  | none {rest} : accept .dot text = .ok (false, rest) → LinkRule fuel text [] rest
  | some {inner steps rest} : accept .dot text = .ok (true, inner) →
      chain fuel inner = .ok (steps, rest) → LinkRule fuel text steps rest

theorem link_succ_eq_ok_iff {fuel : Nat} {text rest : List Char} {steps : Chain} :
    link (fuel + 1) text = .ok (steps, rest) ↔ LinkRule fuel text steps rest := by
  simp only [link, bind_eq_ok_iff]
  constructor
  · intro hread
    obtain ⟨⟨dotted, inner⟩, ha, h⟩ := hread
    cases dotted with
    | false =>
        cases h
        exact .none ha
    | true => exact .some ha h
  · intro hrule
    cases hrule with
    | none ha => exact ⟨_, ha, rfl⟩
    | some ha hc => exact ⟨_, ha, hc⟩

inductive WildcardRule (fuel : Nat) (text : List Char) : Step → List Char → Prop where
  | group {start inner exclude inner' group rest} :
      Lexeme.next false text = .ok ⟨.mark .parenL, start, inner⟩ →
      accept .bang inner = .ok (exclude, inner') → members fuel inner' = .ok (group, rest) →
      WildcardRule fuel text (.group exclude group) rest
  | range {start inner bounds rest} :
      Lexeme.next false text = .ok ⟨.mark .bracketL, start, inner⟩ →
      range inner = .ok (bounds, rest) → WildcardRule fuel text (.range bounds) rest
  | any {t} : Lexeme.next false text = .ok t → t.token ≠ .mark .parenL →
      t.token ≠ .mark .bracketL → WildcardRule fuel text .any text

theorem wildcard_succ_eq_ok_iff {fuel : Nat} {text rest : List Char} {step : Step} :
    wildcard (fuel + 1) text = .ok (step, rest) ↔ WildcardRule fuel text step rest := by
  simp only [wildcard, bind_eq_ok_iff]
  constructor
  · intro hread
    obtain ⟨⟨token, start, inner⟩, ht, h⟩ := hread
    simp only at h
    split at h
    · obtain ⟨⟨exclude, inner'⟩, ha, h⟩ := bind_eq_ok_iff.mp h
      obtain ⟨⟨group, rest'⟩, hm, h⟩ := bind_eq_ok_iff.mp h
      cases h
      exact .group ht ha hm
    · obtain ⟨⟨bounds, rest'⟩, hr, h⟩ := bind_eq_ok_iff.mp h
      cases h
      exact .range ht hr
    · rename_i hp hb
      cases h
      exact .any ht hp hb
  · intro hrule
    cases hrule with
    | group ht ha hm => exact ⟨_, ht, bind_eq_ok_iff.mpr ⟨_, ha, bind_eq_ok_iff.mpr ⟨_, hm, rfl⟩⟩⟩
    | range ht hr => exact ⟨_, ht, bind_eq_ok_iff.mpr ⟨_, hr, rfl⟩⟩
    | any ht hp hb =>
        refine ⟨_, ht, ?_⟩
        split
        · rename_i h
          exact absurd h hp
        · rename_i h
          exact absurd h hb
        · rfl

inductive MembersRule (fuel : Nat) (text : List Char) : List Chain → List Char → Prop where
  | last {t member after start rest} : Lexeme.next false text = .ok t →
      t.token ≠ .mark .bang → chain fuel text = .ok (member, after) →
      Lexeme.next false after = .ok ⟨.mark .parenR, start, rest⟩ →
      MembersRule fuel text [member] rest
  | more {t member after start inner others rest} : Lexeme.next false text = .ok t →
      t.token ≠ .mark .bang → chain fuel text = .ok (member, after) →
      Lexeme.next false after = .ok ⟨.mark .comma, start, inner⟩ →
      members fuel inner = .ok (others, rest) → MembersRule fuel text (member :: others) rest

theorem members_succ_eq_ok_iff {fuel : Nat} {text rest : List Char} {all : List Chain} :
    members (fuel + 1) text = .ok (all, rest) ↔ MembersRule fuel text all rest := by
  simp only [members, bind_eq_ok_iff]
  constructor
  · intro hread
    obtain ⟨t, ht, h⟩ := hread
    by_cases hb : t.token = .mark .bang
    · rw [if_pos hb] at h
      cases h
    · rw [if_neg hb] at h
      obtain ⟨⟨member, after⟩, hc, h⟩ := bind_eq_ok_iff.mp h
      obtain ⟨⟨token, start, inner⟩, hu, h⟩ := bind_eq_ok_iff.mp h
      simp only at h
      split at h
      · obtain ⟨⟨others, rest'⟩, ho, h⟩ := bind_eq_ok_iff.mp h
        cases h
        exact .more ht hb hc hu ho
      · cases h
        exact .last ht hb hc hu
      · cases h
  · intro hrule
    cases hrule with
    | last ht hb hc hu =>
        refine ⟨_, ht, (if_neg hb).trans (bind_eq_ok_iff.mpr ⟨_, hc, ?_⟩)⟩
        exact bind_eq_ok_iff.mpr ⟨_, hu, rfl⟩
    | more ht hb hc hu ho =>
        refine ⟨_, ht, (if_neg hb).trans (bind_eq_ok_iff.mpr ⟨_, hc, ?_⟩)⟩
        exact bind_eq_ok_iff.mpr ⟨_, hu, bind_eq_ok_iff.mpr ⟨_, ho, rfl⟩⟩

/-! ## Whole patterns -/

inductive WholeRule (fuel : Nat) (text : List Char) : Chain → Prop where
  | blank {t} : Lexeme.next false text = .ok t → t.token = .eof → WholeRule fuel text []
  | steps {t steps rest u} : Lexeme.next false text = .ok t → t.token ≠ .eof →
      chain fuel text = .ok (steps, rest) → Lexeme.next false rest = .ok u → u.token = .eof →
      WholeRule fuel text steps

theorem whole_eq_ok_iff {fuel : Nat} {text : List Char} {steps : Chain} :
    whole fuel text = .ok steps ↔ WholeRule fuel text steps := by
  simp only [whole, bind_eq_ok_iff]
  constructor
  · intro hread
    obtain ⟨t, ht, h⟩ := hread
    by_cases he : t.token = .eof
    · rw [if_pos he] at h
      cases h
      exact .blank ht he
    · rw [if_neg he] at h
      obtain ⟨⟨steps', rest⟩, hc, h⟩ := bind_eq_ok_iff.mp h
      obtain ⟨u, hu, h⟩ := bind_eq_ok_iff.mp h
      by_cases he' : u.token = .eof
      · rw [if_pos he'] at h
        cases h
        exact .steps ht he hc hu he'
      · rw [if_neg he'] at h
        cases h
  · intro hrule
    cases hrule with
    | blank ht he => exact ⟨_, ht, if_pos he⟩
    | steps ht he hc hu he' =>
        refine ⟨_, ht, (if_neg he).trans (bind_eq_ok_iff.mpr ⟨_, hc, ?_⟩)⟩
        exact bind_eq_ok_iff.mpr ⟨_, hu, if_pos he'⟩

end Pattern

theorem Chain.parse_eq_ok_iff {text : String} {chain : Chain} :
    Chain.parse text = .ok chain ↔
      Pattern.WholeRule (2 * text.toList.length + 2) text.toList chain := by
  rw [← Pattern.whole_eq_ok_iff, Chain.parse]
  cases Pattern.whole (2 * text.toList.length + 2) text.toList with
  | error fault => exact iff_of_false (by intro h; cases h) (by intro h; cases h)
  | ok steps => exact Iff.rfl

end DocPath
