import DocPath.Proofs.Pattern.Equations
import Mathlib.Data.List.Forall2
import Mathlib.Data.List.TakeWhile

/-! # Well-formed chains

The shapes that patterns have, and that every accepted text has one of them. -/

namespace DocPath

/-! ## Templates -/

mutual

/-- No name in a template is empty. -/
def Template.Named : Template → Prop
  | .object properties => PropertiesNamed properties
  | .array elements => SlotsNamed elements

def PropertiesNamed : List Property → Prop
  | [] => True
  | property :: rest => property.Named ∧ PropertiesNamed rest

def Property.Named : Property → Prop
  | .plain key => key ≠ ""
  | .bound key slot => key ≠ "" ∧ slot.Named

def Slot.Named : Slot → Prop
  | .name name => name ≠ ""
  | .nested template => template.Named

def SlotsNamed : List Slot → Prop
  | [] => True
  | slot :: rest => slot.Named ∧ SlotsNamed rest

end

/-! ## Chains -/

/-- The bounds that there are fit a signed machine word. -/
def Bounds.Fits (bounds : Bounds) : Prop :=
  ∀ n, bounds.low = some n ∨ bounds.high = some n →
    -Numeral.signedLimit ≤ n ∧ n < Numeral.signedLimit

/-- A chain is a name with any number of indices, of which the last step may be expanded, or a
wildcard, or a verbatim text, each with nothing or a chain behind it; or it is a destructuring
expression at its end. -/
inductive Chain.WellFormed : Chain → Prop where
  | name {text : String} {indices : List String} {after : Chain} : text ≠ "" →
      (∀ index ∈ indices, index ≠ "") → (after ≠ [] → WellFormed after) →
      WellFormed (.name text false false :: (indices.map (Step.name · true false) ++ after))
  | expandedName {text : String} {after : Chain} : text ≠ "" →
      (after ≠ [] → WellFormed after) → WellFormed (.name text false true :: after)
  | expandedIndex {text : String} {indices : List String} {last : String} {after : Chain} :
      text ≠ "" → (∀ index ∈ indices, index ≠ "") → last ≠ "" →
      (after ≠ [] → WellFormed after) →
      WellFormed (.name text false false ::
        (indices.map (Step.name · true false) ++ .name last true true :: after))
  | verbatim {body : String} {after : Chain} : stripBlanks body = body →
      (after ≠ [] → WellFormed after) → WellFormed (.verbatim body :: after)
  | any {after : Chain} : (after ≠ [] → WellFormed after) → WellFormed (.any :: after)
  | range {bounds : Bounds} {after : Chain} : bounds.Fits →
      (after ≠ [] → WellFormed after) → WellFormed (.range bounds :: after)
  | group {exclude : Bool} {members : List Chain} {after : Chain} : members ≠ [] →
      (∀ member ∈ members, WellFormed member) → (after ≠ [] → WellFormed after) →
      WellFormed (.group exclude members :: after)
  | destructor {d : Destructor} : d.template.Named → WellFormed [.destructor d]

theorem Chain.WellFormed.ne_nil {chain : Chain} (h : chain.WellFormed) : chain ≠ [] := by
  cases h <;> exact List.cons_ne_nil _ _

/-- What is said of a single step of a well-formed chain. -/
def Step.WellFormed : Step → Prop
  | .name text _ _ => text ≠ ""
  | .verbatim body => stripBlanks body = body
  | .any => True
  | .range bounds => bounds.Fits
  | .group _ members => members ≠ [] ∧ ∀ member ∈ members, Chain.WellFormed member
  | .destructor d => d.template.Named

theorem Chain.WellFormed.of_mem {chain : Chain} (h : chain.WellFormed) :
    ∀ step ∈ chain, step.WellFormed := by
  have hafter : ∀ {after : Chain}, (after ≠ [] → ∀ step ∈ after, step.WellFormed) →
      ∀ step ∈ after, step.WellFormed := by
    intro after ih step hs
    exact ih (List.ne_nil_of_mem hs) step hs
  have hindices : ∀ {indices : List String}, (∀ index ∈ indices, index ≠ "") →
      ∀ step ∈ indices.map (Step.name · true false), step.WellFormed := by
    intro indices hi
    exact List.forall_mem_map.mpr hi
  induction h with
  | name ht hi _ ih =>
      exact List.forall_mem_cons.mpr ⟨ht, List.forall_mem_append.mpr ⟨hindices hi, hafter ih⟩⟩
  | expandedName ht _ ih => exact List.forall_mem_cons.mpr ⟨ht, hafter ih⟩
  | expandedIndex ht hi hlast _ ih =>
      refine List.forall_mem_cons.mpr ⟨ht, List.forall_mem_append.mpr ⟨hindices hi, ?_⟩⟩
      exact List.forall_mem_cons.mpr ⟨hlast, hafter ih⟩
  | verbatim hbody _ ih => exact List.forall_mem_cons.mpr ⟨hbody, hafter ih⟩
  | any _ ih => exact List.forall_mem_cons.mpr ⟨trivial, hafter ih⟩
  | range hbounds _ ih => exact List.forall_mem_cons.mpr ⟨hbounds, hafter ih⟩
  | group hne hm _ _ ih => exact List.forall_mem_cons.mpr ⟨⟨hne, hm⟩, hafter ih⟩
  | destructor hnamed => exact List.forall_mem_singleton.mpr hnamed

theorem exists_segment?_of_not_isOperator {step : Step} (h : step.isOperator = false) :
    ∃ segment, step.segment? = some segment := by
  cases step with
  | name text bracketed expand => exact ⟨_, rfl⟩
  | verbatim text => exact ⟨_, rfl⟩
  | destructor d => exact ⟨_, rfl⟩
  | _ => cases h

/-- The segments of a literal chain are those of its steps, one by one. -/
theorem Chain.forall₂_segments {chain : Chain} (h : chain.isMatch = false) :
    List.Forall₂ (fun step segment => step.segment? = some segment) chain chain.segments := by
  have hsteps := not_isMatch_iff.mp h
  rw [segments_of_not_isMatch h]
  clear h
  induction chain with
  | nil => exact .nil
  | cons step rest ih =>
      obtain ⟨hstep, hrest⟩ := List.forall_mem_cons.mp hsteps
      obtain ⟨segment, hsegment⟩ := exists_segment?_of_not_isOperator hstep
      rw [List.filterMap_cons_some hsegment]
      exact .cons hsegment (ih hrest)

theorem Chain.length_segments {chain : Chain} (h : chain.isMatch = false) :
    chain.segments.length = chain.length :=
  (forall₂_segments h).length_eq.symm

namespace Pattern

/-! ## What the readers accept -/

theorem slot_named (fuel : Nat) :
    (∀ {text rest s}, slot fuel text = .ok (s, rest) → s.Named) ∧
    (∀ {text rest all}, properties fuel text = .ok (all, rest) → PropertiesNamed all) ∧
    (∀ {text rest all}, elements fuel text = .ok (all, rest) → SlotsNamed all) := by
  induction fuel with
  | zero =>
      refine ⟨?_, ?_, ?_⟩
      all_goals
        intro text rest _ h
        cases h
  | succ fuel ih =>
      obtain ⟨ihSlot, ihProperties, ihElements⟩ := ih
      have hproperty : ∀ {key text rest p}, key ≠ "" →
          property (slot fuel) key text = .ok (p, rest) → p.Named := by
        intro key text rest p hne h
        cases property_eq_ok_iff.mp h with
        | plain _ _ => exact hne
        | bound _ hs => exact ⟨hne, ihSlot hs⟩
      refine ⟨?_, ?_, ?_⟩
      · intro text rest s h
        cases slot_succ_eq_ok_iff.mp h with
        | name _ hne => exact hne
        | object _ hm => exact ihProperties hm
        | array _ hm => exact ihElements hm
      · intro text rest all h
        cases properties_succ_eq_ok_iff.mp h with
        | none _ => trivial
        | last _ hne hp _ => exact ⟨hproperty hne hp, trivial⟩
        | more _ hne hp _ ho => exact ⟨hproperty hne hp, ihProperties ho⟩
      · intro text rest all h
        cases elements_succ_eq_ok_iff.mp h with
        | none _ => trivial
        | last hs _ => exact ⟨ihSlot hs, trivial⟩
        | more hs _ ho => exact ⟨ihSlot hs, ihElements ho⟩

theorem template_named {fuel : Nat} {m : Mark} {text rest : List Char} {shape : Template}
    (h : template fuel m text = .ok (shape, rest)) : shape.Named := by
  cases template_eq_ok_iff.mp h with
  | object hp => exact (slot_named fuel).2.1 hp
  | array _ he => exact (slot_named fuel).2.2 he

theorem bound_fits {text rest : List Char} {n : Int} (h : bound text = .ok (some n, rest)) :
    -Numeral.signedLimit ≤ n ∧ n < Numeral.signedLimit := by
  cases bound_eq_ok_iff.mp h with
  | some _ hn =>
      have hf := (Option.filter_eq_some_iff.mp hn).2
      simpa using hf

theorem range_fits {text rest : List Char} {b : Bounds} (h : range text = .ok (b, rest)) :
    b.Fits := by
  cases range_eq_ok_iff.mp h with
  | span hl _ hh _ =>
      rintro n (rfl | rfl)
      · exact bound_fits hl
      · exact bound_fits hh
  | single hl _ _ _ =>
      rintro n (h | h)
      · cases h
        exact bound_fits hl
      · cases h
        exact bound_fits hl

theorem indices_ne_empty {fuel : Nat} {text rest : List Char} {all : List String}
    (h : indices fuel text = .ok (all, rest)) : ∀ index ∈ all, index ≠ "" := by
  induction fuel generalizing text all with
  | zero =>
      cases h
      simp
  | succ fuel ih =>
      cases indices_succ_eq_ok_iff.mp h with
      | none _ _ => simp
      | more _ _ hne _ ho =>
          intro index hi
          rcases List.mem_cons.mp hi with rfl | hi
          · exact hne
          · exact ih ho index hi

theorem nameSteps_false (bracketed : Bool) (text : String) (more : List String) :
    nameSteps bracketed text more false =
      .name text bracketed false :: more.map (Step.name · true false) := by
  induction more generalizing bracketed text with
  | nil => rfl
  | cons index more ih => rw [nameSteps, ih, List.map_cons]

theorem nameSteps_append_true (bracketed : Bool) (text last : String) (more : List String) :
    nameSteps bracketed text (more ++ [last]) true =
      .name text bracketed false :: (more.map (Step.name · true false) ++
        [.name last true true]) := by
  induction more generalizing bracketed text with
  | nil => rfl
  | cons index more ih => rw [List.cons_append, nameSteps, ih, List.map_cons, List.cons_append]

theorem wellFormed_nameSteps {text : String} {indices : List String} {after : Chain}
    (ht : text ≠ "") (hi : ∀ index ∈ indices, index ≠ "")
    (ha : after ≠ [] → after.WellFormed) (expand : Bool) :
    Chain.WellFormed (nameSteps false text indices expand ++ after) := by
  cases expand with
  | false =>
      rw [nameSteps_false]
      exact .name ht hi ha
  | true =>
      rcases List.eq_nil_or_concat indices with rfl | ⟨more, last, rfl⟩
      · exact .expandedName ht ha
      · rw [List.concat_eq_append] at hi ⊢
        rw [nameSteps_append_true]
        have hmore : ∀ index ∈ more, index ≠ "" := fun index h => hi index (by simp [h])
        simpa using Chain.WellFormed.expandedIndex ht hmore (hi last (by simp)) ha

/-- What each reader of chains makes is well-formed, and so is what a wildcard leads. -/
theorem chain_wellFormed (fuel : Nat) :
    (∀ {text rest steps}, chain fuel text = .ok (steps, rest) → steps.WellFormed) ∧
    (∀ {text rest steps}, link fuel text = .ok (steps, rest) → steps ≠ [] → steps.WellFormed) ∧
    (∀ {text rest step}, wildcard fuel text = .ok (step, rest) →
      ∀ after : Chain, (after ≠ [] → after.WellFormed) →
        Chain.WellFormed (step :: after)) ∧
    (∀ {text rest all}, members fuel text = .ok (all, rest) →
      all ≠ [] ∧ ∀ member ∈ all, Chain.WellFormed member) := by
  induction fuel with
  | zero =>
      refine ⟨?_, ?_, ?_, ?_⟩
      all_goals
        intro text rest _ h
        cases h
  | succ fuel ih =>
      obtain ⟨ihChain, ihLink, ihWildcard, ihMembers⟩ := ih
      refine ⟨?_, ?_, ?_, ?_⟩
      · intro text rest steps h
        cases chain_succ_eq_ok_iff.mp h with
        | name _ hne hi _ hl => exact wellFormed_nameSteps hne (indices_ne_empty hi) (ihLink hl) _
        | verbatim _ hl => exact .verbatim (stripBlanks_stripBlanks _) (ihLink hl)
        | wildcard _ hw hl => exact ihWildcard hw _ (ihLink hl)
        | destructor _ _ hd =>
            exact .destructor (template_named (destructor_eq_ok_iff.mp hd).1)
      · intro text rest steps h hne
        cases link_succ_eq_ok_iff.mp h with
        | none _ => exact absurd rfl hne
        | some _ hc => exact ihChain hc
      · intro text rest step h after ha
        cases wildcard_succ_eq_ok_iff.mp h with
        | group _ _ hm => exact .group (ihMembers hm).1 (ihMembers hm).2 ha
        | range _ hr => exact .range (range_fits hr) ha
        | any _ _ _ => exact .any ha
      · intro text rest all h
        cases members_succ_eq_ok_iff.mp h with
        | last _ _ hc _ =>
            refine ⟨List.cons_ne_nil _ _, ?_⟩
            intro member hm
            rw [List.mem_singleton.mp hm]
            exact ihChain hc
        | more _ _ hc _ ho =>
            refine ⟨List.cons_ne_nil _ _, ?_⟩
            intro member hm
            rcases List.mem_cons.mp hm with rfl | hm
            · exact ihChain hc
            · exact (ihMembers ho).2 member hm

end Pattern

/-! ## Accepted texts -/

theorem Lexeme.token_eq_eof_iff {inside : Bool} {text : List Char} {t : Lexeme}
    (ht : Lexeme.next inside text = .ok t) :
    t.token = .eof ↔ ∀ c ∈ text, isBlank c = true := by
  rw [← List.dropWhile_eq_nil_iff]
  cases Lexeme.next_eq_ok_iff.mp ht with
  | eof hs => simp [hs]
  | name hs _ _ => simp [hs]
  | verbatim _ hs _ => simp [hs]
  | mark hs _ => simp [hs]

theorem Chain.parse_eq_nil_iff {text : String} {chain : Chain}
    (h : Chain.parse text = .ok chain) : chain = [] ↔ ∀ c ∈ text.toList, isBlank c = true := by
  cases Chain.parse_eq_ok_iff.mp h with
  | blank ht he => simpa using (Lexeme.token_eq_eof_iff ht).mp he
  | steps ht he hc _ _ =>
      have hne := ((Pattern.chain_wellFormed _).1 hc).ne_nil
      rw [← Lexeme.token_eq_eof_iff ht]
      exact iff_of_false hne he

theorem Chain.wellFormed_of_parse {text : String} {chain : Chain}
    (h : Chain.parse text = .ok chain) (hne : chain ≠ []) : chain.WellFormed := by
  cases Chain.parse_eq_ok_iff.mp h with
  | blank _ _ => exact absurd rfl hne
  | steps _ _ hc _ _ => exact (Pattern.chain_wellFormed _).1 hc

end DocPath
