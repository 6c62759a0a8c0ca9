import DocPath.Proofs.Pattern.Origin
import DocPath.Proofs.Pattern.RoundTrip

/-! # The grammar of patterns

A pattern is a phrase of a grammar that looks one token ahead. A derivation takes phrases apart into
the tokens that make them up, and whatever the readers accept has one. -/

namespace DocPath

/-- The name that a property is taken from. -/
def Property.key : Property → String
  | .plain key => key
  | .bound key _ => key

namespace Pattern

/-! ## Phrases and their productions -/

/-- The parts of a pattern. Behind a token it is settled whether the next one is read inside a
destructuring expression. -/
inductive Phrase where
  | token (t : Token) (behind : Bool)
  | ahead (allowed : Token → Prop)
  | slot (s : Slot)
  | property (p : Property)
  | properties (behind : Bool) (all : List Property)
  | elements (behind : Bool) (all : List Slot)
  | destructor (d : Destructor)
  | bound (n : Option Int)
  | range (b : Bounds)
  | indices (all : List String)
  | option (m : Mark) (present : Bool)
  | chain (steps : Chain)
  | link (steps : Chain)
  | wildcard (step : Step)
  | members (all : List Chain)

/-- What a phrase consists of. A property stands behind its name, a range behind its opening
bracket, a wildcard behind its star; properties, elements and members go up to their closing
bracket. -/
inductive Production : Phrase → List Phrase → Prop where
  | slotName {name} : name ≠ "" → Production (.slot (.name name)) [.token (.name name) true]
  | slotObject {all} : Production (.slot (.nested (.object all)))
      [.token (.mark .braceL) true, .properties true all]
  | slotArray {all} : Production (.slot (.nested (.array all)))
      [.token (.mark .bracketL) true, .elements true all]
  | plain {key} : Production (.property (.plain key)) [.ahead (· ≠ .mark .colon)]
  | bound {key value} : Production (.property (.bound key value))
      [.token (.mark .colon) true, .slot value]
  | noProperty {behind} : Production (.properties behind []) [.token (.mark .braceR) behind]
  | lastProperty {behind} {p : Property} : p.key ≠ "" → Production (.properties behind [p])
      [.token (.name p.key) true, .property p, .token (.mark .braceR) behind]
  | moreProperties {behind others} {p : Property} : p.key ≠ "" →
      Production (.properties behind (p :: others)) [.token (.name p.key) true, .property p,
        .token (.mark .comma) true, .properties behind others]
  | noElement {behind} : Production (.elements behind []) [.token (.mark .bracketR) behind]
  | lastElement {behind s} : Production (.elements behind [s])
      [.slot s, .token (.mark .bracketR) behind]
  | moreElements {behind s others} : Production (.elements behind (s :: others))
      [.slot s, .token (.mark .comma) true, .elements behind others]
  | noBound : Production (.bound none) [.ahead fun t => ∀ digits, t ≠ .name digits]
  | someBound {digits n} : Numeral.signedWord? digits.toList = some n →
      Production (.bound (some n)) [.token (.name digits) false]
  | span {low high} : Production (.range ⟨low, high⟩) [.bound low, .token (.mark .colon) false,
      .bound high, .token (.mark .bracketR) false]
  | single {n} : Production (.range ⟨some n, some n⟩)
      [.bound (some n), .token (.mark .bracketR) false]
  | noIndex : Production (.indices []) [.ahead (· ≠ .mark .bracketL)]
  | moreIndices {index others} : index ≠ "" → Production (.indices (index :: others))
      [.token (.mark .bracketL) false, .token (.name index) false, .token (.mark .bracketR) false,
        .indices others]
  | absent {m} : Production (.option m false) [.ahead (· ≠ .mark m)]
  | present {m} : Production (.option m true) [.token (.mark m) false]
  | name {name more expand after} : name ≠ "" →
      Production (.chain (nameSteps false name more expand ++ after))
        [.token (.name name) false, .indices more, .option .tilde expand, .link after]
  | verbatim {body after} : Production (.chain (.verbatim (stripBlanks body) :: after))
      [.token (.verbatim body) false, .link after]
  | wildcard {step after} : step.isWildcard = true → Production (.chain (step :: after))
      [.token (.mark .star) false, .wildcard step, .link after]
  | destructor {d} : Production (.chain [.destructor d]) [.destructor d, .ahead (· ≠ .mark .dot)]
  | lastStep : Production (.link []) [.option .dot false]
  | moreSteps {steps} : Production (.link steps) [.option .dot true, .chain steps]
  | anything : Production (.wildcard .any)
      [.ahead fun t => t ≠ .mark .parenL ∧ t ≠ .mark .bracketL]
  | ranged {b} : Production (.wildcard (.range b)) [.token (.mark .bracketL) false, .range b]
  | group {exclude all} : Production (.wildcard (.group exclude all))
      [.token (.mark .parenL) false, .option .bang exclude, .members all]
  | lastMember {member} : Production (.members [member])
      [.chain member, .token (.mark .parenR) false]
  | moreMembers {member others} : Production (.members (member :: others))
      [.chain member, .token (.mark .comma) false, .members others]

end Pattern

/-- The phrases of an expression. Its closing bracket leads out of it. -/
def Template.phrases : Template → List Pattern.Phrase
  | .object all => [.token (.mark .braceL) true, .properties false all]
  | .array all => [.token (.mark .bracketL) true, .elements false all]

namespace Pattern

/-! ## Derivations -/

/-- A text to be read, and whether its first token is inside a destructuring expression. -/
structure Position where
  inside : Bool
  text : List Char

/-- The phrases one after the other take up the text between two positions, with these lexemes. -/
inductive Derivation : List Phrase → Position → List Lexeme → Position → Prop where
  | nil {a} : Derivation [] a [] a
  | token {phrases run} {behind : Bool} {a b : Position} {t : Lexeme} :
      Lexeme.next a.inside a.text = .ok t → t.token ≠ .eof →
      Derivation phrases ⟨behind, t.rest⟩ run b →
      Derivation (.token t.token behind :: phrases) a (t :: run) b
  | ahead {phrases run} {allowed : Token → Prop} {a b : Position} {t : Lexeme} :
      Lexeme.next a.inside a.text = .ok t → allowed t.token → Derivation phrases a run b →
      Derivation (.ahead allowed :: phrases) a run b
  | phrase {p parts phrases run run' a b c} : Production p parts → Derivation parts a run b →
      Derivation phrases b run' c → Derivation (p :: phrases) a (run ++ run') c
  | destructor {d : Destructor} {phrases run run'} {a b c : Position} :
      Derivation d.template.phrases a run b →
      withoutBlanks a.text = d.source.toList ++ withoutBlanks b.text →
      Derivation phrases b run' c → Derivation (.destructor d :: phrases) a (run ++ run') c

namespace Derivation

variable {phrases : List Phrase} {run : List Lexeme} {a b c : Position}

theorem suffix (h : Derivation phrases a run b) : b.text <:+ a.text := by
  induction h with
  | nil => exact List.suffix_refl _
  | token ht _ _ ih => exact ih.trans (Lexeme.suffix_of_next ht)
  | ahead _ _ _ ih => exact ih
  | phrase _ _ _ ihParts ih => exact ih.trans ihParts
  | destructor _ _ _ ihParts ih => exact ih.trans ihParts

theorem append {more : List Phrase} {run' : List Lexeme} (h : Derivation phrases a run b)
    (h' : Derivation more b run' c) : Derivation (phrases ++ more) a (run ++ run') c := by
  induction h with
  | nil => exact h'
  | token ht hne _ ih => exact .token ht hne (ih h')
  | ahead ht hallowed _ ih => exact .ahead ht hallowed (ih h')
  | phrase hp hparts _ _ ih =>
      rw [List.append_assoc]
      exact .phrase hp hparts (ih h')
  | destructor hparts hsource _ _ ih =>
      rw [List.append_assoc]
      exact .destructor hparts hsource (ih h')

end Derivation

/-- There is a derivation, with whatever lexemes. -/
def Derives (phrases : List Phrase) (a b : Position) : Prop :=
  ∃ run, Derivation phrases a run b

namespace Derives

variable {phrases parts : List Phrase} {p : Phrase} {a b c : Position}

theorem nil : Derives [] a a := ⟨[], .nil⟩

theorem suffix (h : Derives phrases a b) : b.text <:+ a.text := by
  obtain ⟨run, h⟩ := h
  exact h.suffix

theorem length_le {inside behind : Bool} {text rest : List Char}
    (h : Derives phrases ⟨inside, text⟩ ⟨behind, rest⟩) : rest.length ≤ text.length :=
  h.suffix.length_le

theorem token {t : Token} {start rest : List Char} {behind : Bool}
    (ht : Lexeme.next a.inside a.text = .ok ⟨t, start, rest⟩) (hne : t ≠ .eof)
    (h : Derives phrases ⟨behind, rest⟩ b) : Derives (.token t behind :: phrases) a b := by
  obtain ⟨run, h⟩ := h
  exact ⟨_, .token ht hne h⟩

theorem ahead {allowed : Token → Prop} {t : Lexeme} (ht : Lexeme.next a.inside a.text = .ok t)
    (hallowed : allowed t.token) : Derives [.ahead allowed] a a :=
  ⟨_, .ahead ht hallowed .nil⟩

theorem cons (h : Derives [p] a b) (h' : Derives phrases b c) : Derives (p :: phrases) a c := by
  obtain ⟨run, h⟩ := h
  obtain ⟨run', h'⟩ := h'
  exact ⟨_, h.append h'⟩

theorem phrase (hp : Production p parts) (h : Derives parts a b) : Derives [p] a b := by
  obtain ⟨run, h⟩ := h
  exact ⟨_, .phrase hp h .nil⟩

theorem destructor {d : Destructor} (h : Derives d.template.phrases a b)
    (hsource : withoutBlanks a.text = d.source.toList ++ withoutBlanks b.text) :
    Derives [.destructor d] a b := by
  obtain ⟨run, h⟩ := h
  exact ⟨_, .destructor h hsource .nil⟩

end Derives

/-! ## What is read has a derivation -/

theorem derives_slot (fuel : Nat) :
    (∀ {text rest s}, slot fuel text = .ok (s, rest) →
      Derives [.slot s] ⟨true, text⟩ ⟨true, rest⟩) ∧
    (∀ {text rest all} (behind), properties fuel text = .ok (all, rest) →
      Derives [.properties behind all] ⟨true, text⟩ ⟨behind, rest⟩) ∧
    (∀ {text rest all} (behind), elements fuel text = .ok (all, rest) →
      Derives [.elements behind all] ⟨true, text⟩ ⟨behind, rest⟩) := by
  induction fuel with
  | zero =>
      refine ⟨?_, ?_, ?_⟩
      all_goals
        intros
        contradiction
  | succ fuel ih =>
      obtain ⟨ihSlot, ihProperties, ihElements⟩ := ih
      have ihProperty {key : String} {text rest : List Char} {p : Property}
          (h : property (slot fuel) key text = .ok (p, rest)) :
          p.key = key ∧ Derives [.property p] ⟨true, text⟩ ⟨true, rest⟩ := by
        cases property_eq_ok_iff.mp h with
        | plain ht hne => exact ⟨rfl, .phrase .plain (.ahead ht hne)⟩
        | bound ht hs => exact ⟨rfl, .phrase .bound (.token ht (by simp) (ihSlot hs))⟩
      refine ⟨?_, ?_, ?_⟩
      · intro text rest s h
        cases slot_succ_eq_ok_iff.mp h with
        | name ht hne => exact .phrase (.slotName hne) (.token ht (by simp) .nil)
        | object ht hp => exact .phrase .slotObject (.token ht (by simp) (ihProperties true hp))
        | array ht he => exact .phrase .slotArray (.token ht (by simp) (ihElements true he))
      · intro text rest all behind h
        cases properties_succ_eq_ok_iff.mp h with
        | none ht => exact .phrase .noProperty (.token ht (by simp) .nil)
        | last ht hne hp hu =>
            obtain ⟨rfl, hproperty⟩ := ihProperty hp
            exact .phrase (.lastProperty hne)
              (.token ht (by simp) (.cons hproperty (.token hu (by simp) .nil)))
        | more ht hne hp hu ho =>
            obtain ⟨rfl, hproperty⟩ := ihProperty hp
            have hothers := ihProperties behind ho
            exact .phrase (.moreProperties hne)
              (.token ht (by simp) (.cons hproperty (.token hu (by simp) hothers)))
      · intro text rest all behind h
        cases elements_succ_eq_ok_iff.mp h with
        | none ht => exact .phrase .noElement (.token ht (by simp) .nil)
        | last hs hu =>
            exact .phrase .lastElement (.cons (ihSlot hs) (.token hu (by simp) .nil))
        | more hs hu ho =>
            have hothers := ihElements behind ho
            exact .phrase .moreElements (.cons (ihSlot hs) (.token hu (by simp) hothers))

/-- The source of an expression is the text that it takes up, without the blanks. -/
theorem source_eq_iff {text start inner rest : List Char} {m : Mark} {source : String}
    (ht : Lexeme.next false text = .ok ⟨.mark m, start, inner⟩) (hrest : rest <:+ inner) :
    source = String.ofList (withoutBlanks (start.take (start.length - rest.length))) ↔
      withoutBlanks text = source.toList ++ withoutBlanks rest := by
  obtain ⟨taken, rfl⟩ : rest <:+ start := hrest.trans (Lexeme.rest_suffix_of_next ht)
  rw [← withoutBlanks_dropWhile text, ← Lexeme.start_eq_of_next ht]
  simp only [List.length_append, Nat.add_sub_cancel, List.take_left', withoutBlanks_append,
    List.append_left_inj]
  constructor
  · rintro rfl
    rw [String.toList_ofList]
  · intro h
    rw [h, String.ofList_toList]

theorem derives_destructor {fuel : Nat} {text start inner rest : List Char} {m : Mark}
    {d : Destructor} (ht : Lexeme.next false text = .ok ⟨.mark m, start, inner⟩)
    (hm : m = .braceL ∨ m = .bracketL)
    (h : destructor fuel ⟨.mark m, start, inner⟩ m = .ok (d, rest)) :
    Derives [.destructor d, .ahead (· ≠ .mark .dot)] ⟨false, text⟩ ⟨false, rest⟩ := by
  obtain ⟨hshape, ⟨t, hu, hne⟩, hsource⟩ := destructor_eq_ok_iff.mp h
  obtain ⟨-, hproperties, helements⟩ := derives_slot fuel
  obtain ⟨shape, source⟩ := d
  have hphrases : Derives shape.phrases ⟨false, text⟩ ⟨false, rest⟩ := by
    cases template_eq_ok_iff.mp hshape with
    | object hp => exact .token ht (by simp) (hproperties false hp)
    | array hne he =>
        obtain rfl := hm.resolve_left hne
        exact .token ht (by simp) (helements false he)
  have hrest : rest <:+ inner := by
    cases template_eq_ok_iff.mp hshape with
    | object hp => exact (hproperties false hp).suffix
    | array _ he => exact (helements false he).suffix
  exact .cons (.destructor hphrases ((source_eq_iff ht hrest).mp hsource)) (.ahead hu hne)

theorem derives_option {m : Mark} {text rest : List Char} {present : Bool}
    (h : accept m text = .ok (present, rest)) :
    Derives [.option m present] ⟨false, text⟩ ⟨false, rest⟩ := by
  cases accept_eq_ok_iff.mp h with
  | present ht => exact .phrase .present (.token ht (by simp) .nil)
  | absent ht hne => exact .phrase .absent (.ahead ht hne)

theorem derives_bound {text rest : List Char} {n : Option Int}
    (h : bound text = .ok (n, rest)) : Derives [.bound n] ⟨false, text⟩ ⟨false, rest⟩ := by
  cases bound_eq_ok_iff.mp h with
  | none ht hne => exact .phrase .noBound (.ahead ht hne)
  | some ht hn => exact .phrase (.someBound hn) (.token ht (by simp) .nil)

theorem derives_range {text rest : List Char} {b : Bounds} (h : range text = .ok (b, rest)) :
    Derives [.range b] ⟨false, text⟩ ⟨false, rest⟩ := by
  cases range_eq_ok_iff.mp h with
  | span hlow hcolon hhigh hclose =>
      obtain ⟨start, hclose⟩ := expect_eq_ok_iff.mp hclose
      refine .phrase .span (.cons (derives_bound hlow) (.token hcolon (by simp) ?_))
      exact .cons (derives_bound hhigh) (.token hclose (by simp) .nil)
  | single hn _ _ hclose =>
      obtain ⟨start, hclose⟩ := expect_eq_ok_iff.mp hclose
      exact .phrase .single (.cons (derives_bound hn) (.token hclose (by simp) .nil))

theorem derives_indices {fuel : Nat} {text rest : List Char} {all : List String}
    (hf : text.length ≤ fuel) (h : indices fuel text = .ok (all, rest)) :
    Derives [.indices all] ⟨false, text⟩ ⟨false, rest⟩ := by
  induction fuel generalizing text all with
  | zero =>
      -- Without fuel there is no text either, so the end comes next.
      cases h
      obtain rfl := List.eq_nil_of_length_eq_zero (Nat.le_zero.mp hf)
      exact .phrase .noIndex (.ahead (t := ⟨.eof, [], []⟩) rfl (by simp))
  | succ fuel ih =>
      cases indices_succ_eq_ok_iff.mp h with
      | none ht hne => exact .phrase .noIndex (.ahead ht hne)
      | more ht hu hne he ho =>
          obtain ⟨start, he⟩ := expect_eq_ok_iff.mp he
          have hopen := Lexeme.length_lt_of_next ht (by simp)
          have hindex := Lexeme.length_lt_of_next hu (by simp)
          have hclose := Lexeme.length_lt_of_next he (by simp)
          have hothers := ih (by omega) ho
          refine .phrase (.moreIndices hne) (.token ht (by simp) ?_)
          exact .token hu (by simp) (.token he (by simp) hothers)

theorem isWildcard_of_wildcard {fuel : Nat} {text rest : List Char} {step : Step}
    (h : wildcard fuel text = .ok (step, rest)) : step.isWildcard = true := by
  cases fuel with
  | zero => cases h
  | succ fuel =>
      cases wildcard_succ_eq_ok_iff.mp h with
      | group | range | any => rfl

/-- With enough fuel for the text, what is read as a chain or as a part of one has a derivation. -/
theorem derives_chain (fuel : Nat) :
    (∀ {text rest steps}, 2 * text.length ≤ fuel → chain fuel text = .ok (steps, rest) →
      Derives [.chain steps] ⟨false, text⟩ ⟨false, rest⟩) ∧
    (∀ {text rest steps}, 2 * text.length < fuel → link fuel text = .ok (steps, rest) →
      Derives [.link steps] ⟨false, text⟩ ⟨false, rest⟩) ∧
    (∀ {text rest step}, 2 * text.length < fuel → wildcard fuel text = .ok (step, rest) →
      Derives [.wildcard step] ⟨false, text⟩ ⟨false, rest⟩) ∧
    (∀ {text rest all}, 2 * text.length < fuel → members fuel text = .ok (all, rest) →
      Derives [.members all] ⟨false, text⟩ ⟨false, rest⟩) := by
  induction fuel with
  | zero =>
      refine ⟨?_, ?_, ?_, ?_⟩
      all_goals
        intros
        contradiction
  | succ fuel ih =>
      obtain ⟨ihChain, ihLink, ihWildcard, ihMembers⟩ := ih
      refine ⟨?_, ?_, ?_, ?_⟩
      · intro text rest steps hf h
        cases chain_succ_eq_ok_iff.mp h with
        | name ht hne hi ha hl =>
            have hlt := Lexeme.length_lt_of_next ht (by simp)
            have hindices := derives_indices (by omega) hi
            have htilde := derives_option ha
            have hle := hindices.length_le
            have hle' := htilde.length_le
            have hafter := ihLink (by omega) hl
            refine .phrase (.name hne) (.token ht (by simp) (.cons hindices ?_))
            exact .cons htilde hafter
        | verbatim ht hl =>
            have hlt := Lexeme.length_lt_of_next ht (by simp)
            exact .phrase .verbatim (.token ht (by simp) (ihLink (by omega) hl))
        | wildcard ht hw hl =>
            have hlt := Lexeme.length_lt_of_next ht (by simp)
            have hstep := ihWildcard (by omega) hw
            have hle := hstep.length_le
            have hafter := ihLink (by omega) hl
            refine .phrase (.wildcard (isWildcard_of_wildcard hw)) (.token ht (by simp) ?_)
            exact .cons hstep hafter
        | destructor ht hm hd => exact .phrase .destructor (derives_destructor ht hm hd)
      · intro text rest steps hf h
        cases link_succ_eq_ok_iff.mp h with
        | none ha => exact .phrase .lastStep (derives_option ha)
        | @some inner _ _ ha hc =>
            have hlt : inner.length < text.length := by
              cases accept_eq_ok_iff.mp ha with
              | present ht => exact Lexeme.length_lt_of_next ht (by simp)
            exact .phrase .moreSteps (.cons (derives_option ha) (ihChain (by omega) hc))
      · intro text rest step hf h
        cases wildcard_succ_eq_ok_iff.mp h with
        | group ht ha hm =>
            have hlt := Lexeme.length_lt_of_next ht (by simp)
            have hexclude := derives_option ha
            have hle := hexclude.length_le
            have hmembers := ihMembers (by omega) hm
            exact .phrase .group (.token ht (by simp) (.cons hexclude hmembers))
        | range ht hr => exact .phrase .ranged (.token ht (by simp) (derives_range hr))
        | any ht hp hb => exact .phrase .anything (.ahead ht ⟨hp, hb⟩)
      · intro text rest all hf h
        cases members_succ_eq_ok_iff.mp h with
        | last _ _ hc hu =>
            have hmember := ihChain (by omega) hc
            exact .phrase .lastMember (.cons hmember (.token hu (by simp) .nil))
        | more _ _ hc hu ho =>
            have hmember := ihChain (by omega) hc
            have hle := hmember.length_le
            have hlt := Lexeme.length_lt_of_next hu (by simp)
            have hothers := ihMembers (by omega) ho
            exact .phrase .moreMembers (.cons hmember (.token hu (by simp) hothers))

end Pattern

end DocPath
