import DocPath.Path.Basic
import DocPath.Proofs.Pattern.Grammar
import DocPath.Proofs.Pattern.Run

/-! # Classification of patterns

The flags of a chain say which operators stand in it, at whatever depth. The same flags come up one
by one when the lexemes of its text are taken, whatever chain comes of them in the end. -/

namespace DocPath

/-! ## Steps at any depth -/

/-- The step stands in the chain or in a member of a group in it, at any depth. -/
inductive Step.Within (step : Step) : Chain → Prop where
  | here {chain : Chain} : step ∈ chain → Within step chain
  | member {chain member : Chain} {exclude members} : .group exclude members ∈ chain →
      member ∈ members → Within step member → Within step chain

namespace Chain

theorem isWild_iff {chain : Chain} :
    chain.isWild = true ↔ ∃ step, Step.Within step chain ∧ step.isWildcard = true := by
  rw [isWild, List.any_eq_true]
  constructor
  · rintro ⟨step, hmem, hwild⟩
    exact ⟨step, .here hmem, hwild⟩
  · rintro ⟨step, hwithin, hwild⟩
    cases hwithin with
    | here hmem => exact ⟨step, hmem, hwild⟩
    | member hgroup _ _ => exact ⟨_, hgroup, rfl⟩

theorem isMatch_iff {chain : Chain} :
    chain.isMatch = true ↔ ∃ step, Step.Within step chain ∧ step.isOperator = true := by
  rw [isMatch, List.any_eq_true]
  constructor
  · rintro ⟨step, hmem, hoperator⟩
    exact ⟨step, .here hmem, hoperator⟩
  · rintro ⟨step, hwithin, hoperator⟩
    cases hwithin with
    | here hmem => exact ⟨step, hmem, hoperator⟩
    | member hgroup _ _ => exact ⟨_, hgroup, rfl⟩

end Chain

theorem Step.isOperator_iff {step : Step} : step.isOperator = true ↔
    step.isWildcard = true ∨ ∃ text bracketed, step = .name text bracketed true := by
  cases step <;> simp [isOperator, isWildcard]

namespace Step

theorem chainHasExclusion_eq_any (chain : Chain) :
    chainHasExclusion chain = chain.any hasExclusion := by
  induction chain with
  | nil => rfl
  | cons step rest ih => rw [chainHasExclusion, ih, List.any_cons]

theorem membersHaveExclusion_eq_any (members : List Chain) :
    membersHaveExclusion members = members.any chainHasExclusion := by
  induction members with
  | nil => rfl
  | cons member rest ih => rw [membersHaveExclusion, ih, List.any_cons]

mutual

theorem exists_group_of_hasExclusion {chain : Chain} (step : Step) (hmem : step ∈ chain)
    (h : step.hasExclusion = true) : ∃ members, Step.Within (.group true members) chain := by
  match step with
  | .group true members => exact ⟨members, .here hmem⟩
  | .group false members =>
      obtain ⟨member, hmember, inner, hwithin⟩ := exists_group_of_membersHaveExclusion members h
      exact ⟨inner, .member hmem hmember hwithin⟩
  | .name .. | .verbatim _ | .any | .range _ | .destructor _ => cases h

theorem exists_group_of_chainHasExclusion {chain : Chain} (steps : Chain) (hsub : steps ⊆ chain)
    (h : chainHasExclusion steps = true) : ∃ members, Step.Within (.group true members) chain := by
  match steps with
  | step :: rest =>
      obtain ⟨hmem, hrest⟩ := List.cons_subset.mp hsub
      rcases Bool.or_eq_true_iff.mp h with hstep | hsteps
      · exact exists_group_of_hasExclusion step hmem hstep
      · exact exists_group_of_chainHasExclusion rest hrest hsteps

theorem exists_group_of_membersHaveExclusion (all : List Chain)
    (h : membersHaveExclusion all = true) :
    ∃ member ∈ all, ∃ members, Step.Within (.group true members) member := by
  match all with
  | member :: rest =>
      rcases Bool.or_eq_true_iff.mp h with hmember | hrest
      · have hinner := exists_group_of_chainHasExclusion member (List.Subset.refl member) hmember
        exact ⟨member, List.mem_cons_self, hinner⟩
      · obtain ⟨member', hmem, hinner⟩ := exists_group_of_membersHaveExclusion rest hrest
        exact ⟨member', List.mem_cons_of_mem _ hmem, hinner⟩

end

end Step

namespace Chain

theorem hasExclusion_iff {chain : Chain} :
    chain.hasExclusion = true ↔ ∃ members, Step.Within (.group true members) chain := by
  constructor
  · intro h
    exact Step.exists_group_of_chainHasExclusion chain (List.Subset.refl chain) h
  · rintro ⟨members, hwithin⟩
    rw [hasExclusion]
    induction hwithin with
    | here hmem =>
        rw [Step.chainHasExclusion_eq_any, List.any_eq_true]
        exact ⟨_, hmem, by simp [Step.hasExclusion]⟩
    | member hgroup hmember _ ih =>
        rw [Step.chainHasExclusion_eq_any, List.any_eq_true]
        refine ⟨_, hgroup, ?_⟩
        rw [Step.hasExclusion, Step.membersHaveExclusion_eq_any, Bool.or_eq_true]
        exact .inr (List.any_eq_true.mpr ⟨_, hmember, ih⟩)

theorem isWild_of_hasExclusion {chain : Chain} (h : chain.hasExclusion = true) :
    chain.isWild = true := by
  obtain ⟨members, hwithin⟩ := hasExclusion_iff.mp h
  exact isWild_iff.mpr ⟨_, hwithin, rfl⟩

theorem isMatch_of_isWild {chain : Chain} (h : chain.isWild = true) : chain.isMatch = true := by
  obtain ⟨step, hwithin, hwild⟩ := isWild_iff.mp h
  exact isMatch_iff.mpr ⟨step, hwithin, Step.isOperator_iff.mpr (.inl hwild)⟩

end Chain

/-! ## Flags -/

/-- The classification of a pattern. -/
structure Flags where
  isMatch : Bool
  isWild : Bool
  hasExclusion : Bool
deriving DecidableEq

namespace Flags

def unset : Flags := ⟨false, false, false⟩

def join (first second : Flags) : Flags :=
  ⟨first.isMatch || second.isMatch, first.isWild || second.isWild,
    first.hasExclusion || second.hasExclusion⟩

/-- A star or a tilde makes a pattern a match pattern, a star a wild one. An exclamation mark
excludes. -/
def raise (flags : Flags) : Token → Flags
  | .mark .star => { flags with isMatch := true, isWild := true }
  | .mark .tilde => { flags with isMatch := true }
  | .mark .bang => { flags with hasExclusion := true }
  | _ => flags

theorem join_unset (flags : Flags) : flags.join unset = flags := by
  simp [join, unset]

theorem unset_join (flags : Flags) : unset.join flags = flags := by
  simp [join, unset]

theorem join_assoc (first second third : Flags) :
    (first.join second).join third = first.join (second.join third) := by
  simp [join, Bool.or_assoc]

theorem raise_eq_join (flags : Flags) (t : Token) : flags.raise t = flags.join (unset.raise t) := by
  obtain ⟨isMatch, isWild, hasExclusion⟩ := flags
  cases t with
  | mark m => cases m <;> simp [raise, join, unset]
  | _ => simp [raise, join, unset]

/-- The flags of a chain. -/
def ofChain (chain : Chain) : Flags := ⟨chain.isMatch, chain.isWild, chain.hasExclusion⟩

def ofMembers (members : List Chain) : Flags := members.foldr (fun m => (ofChain m).join) unset

/-- The flags of what stands behind the star of a wildcard. -/
def ofFilter : Step → Flags
  | .group exclude members => join ⟨false, false, exclude⟩ (ofMembers members)
  | _ => unset

theorem hasExclusion_ofMembers (members : List Chain) :
    (ofMembers members).hasExclusion = Step.membersHaveExclusion members := by
  induction members with
  | nil => rfl
  | cons member rest ih => exact congrArg (Step.chainHasExclusion member || ·) ih

theorem ofChain_append (first second : Chain) :
    ofChain (first ++ second) = (ofChain first).join (ofChain second) := by
  simp [ofChain, join, Chain.isMatch, Chain.isWild, Chain.hasExclusion,
    Step.chainHasExclusion_eq_any]

theorem ofChain_singleton (step : Step) :
    ofChain [step] = ⟨step.isOperator, step.isWildcard, step.hasExclusion⟩ := by
  simp [ofChain, Chain.isMatch, Chain.isWild, Chain.hasExclusion, Step.chainHasExclusion_eq_any]

theorem ofChain_nameSteps (bracketed : Bool) (text : String) (more : List String)
    (expand : Bool) : ofChain (Pattern.nameSteps bracketed text more expand) =
      ⟨expand, false, false⟩ := by
  induction more generalizing bracketed text with
  | nil => exact ofChain_singleton _
  | cons index more ih =>
      rw [Pattern.nameSteps, ← List.singleton_append, ofChain_append, ofChain_singleton,
        ih true index]
      rfl

/-- A wildcard brings the flags of its star and of what stands behind it. -/
theorem ofChain_wildcard {step : Step} (h : step.isWildcard = true) :
    ofChain [step] = (unset.raise (.mark .star)).join (ofFilter step) := by
  rw [ofChain_singleton]
  cases step with
  | name | verbatim | destructor => cases h
  | any | range _ => rfl
  | group exclude members =>
      simp [ofFilter, join, raise, unset, Step.isOperator, Step.isWildcard, Step.hasExclusion,
        hasExclusion_ofMembers]

end Flags

namespace Pattern

def Phrase.flags : Phrase → Flags
  | .token t _ => Flags.unset.raise t
  | .option m present => if present then Flags.unset.raise (.mark m) else .unset
  | .chain steps | .link steps => .ofChain steps
  | .wildcard step => .ofFilter step
  | .members all => .ofMembers all
  | .ahead _ | .slot _ | .property _ | .properties .. | .elements .. | .destructor _ | .bound _
  | .range _ | .indices _ => .unset

def phrasesFlags (phrases : List Phrase) : Flags :=
  phrases.foldr (fun p => p.flags.join) .unset

theorem phrasesFlags_cons (p : Phrase) (phrases : List Phrase) :
    phrasesFlags (p :: phrases) = p.flags.join (phrasesFlags phrases) := rfl

theorem phrasesFlags_singleton (p : Phrase) : phrasesFlags [p] = p.flags :=
  p.flags.join_unset

/-- A phrase has the flags of its parts. -/
theorem phrasesFlags_of_production {p : Phrase} {parts : List Phrase} (h : Production p parts) :
    phrasesFlags parts = p.flags := by
  cases h with
  | present => rw [phrasesFlags_singleton, Phrase.flags, Phrase.flags, if_pos rfl]
  | @name name more expand after _ =>
      have hexpand : (Phrase.option .tilde expand).flags = ⟨expand, false, false⟩ := by
        cases expand <;> rfl
      calc phrasesFlags _
          = Flags.unset.join (.join .unset ((Phrase.option .tilde expand).flags.join
              (.ofChain after))) := by
            rw [phrasesFlags_cons, phrasesFlags_cons, phrasesFlags_cons, phrasesFlags_singleton]
            rfl
        _ = .join ⟨expand, false, false⟩ (.ofChain after) := by
            rw [Flags.unset_join, Flags.unset_join, hexpand]
        _ = .ofChain (nameSteps false name more expand ++ after) := by
            rw [Flags.ofChain_append, Flags.ofChain_nameSteps]
  | @verbatim body after =>
      rw [phrasesFlags_cons, phrasesFlags_singleton]
      exact (Flags.ofChain_append [.verbatim (stripBlanks body)] after).symm
  | @wildcard step after hwild =>
      have hchain := Flags.ofChain_append [step] after
      rw [Flags.ofChain_wildcard hwild, Flags.join_assoc] at hchain
      rw [phrasesFlags_cons, phrasesFlags_cons, phrasesFlags_singleton]
      exact hchain.symm
  | moreSteps =>
      rw [phrasesFlags_cons, phrasesFlags_singleton]
      exact Flags.unset_join _
  | @group exclude all =>
      have hexclude : (Phrase.option .bang exclude).flags = ⟨false, false, exclude⟩ := by
        cases exclude <;> rfl
      rw [phrasesFlags_cons, phrasesFlags_cons, phrasesFlags_singleton, hexclude]
      exact Flags.unset_join _
  | @moreMembers member others =>
      rw [phrasesFlags_cons, phrasesFlags_cons, phrasesFlags_singleton]
      exact congrArg (Flags.ofChain member).join (Flags.unset_join _)
  | _ => rfl

end Pattern

/-- The flags that the lexemes of a run raise one after the other. -/
def Flags.raised (run : List Lexeme) : Flags :=
  run.foldl (fun flags t => flags.raise t.token) .unset

/-- What a run raises is what its lexemes raise one by one. -/
theorem Flags.foldl_raise (flags : Flags) (run : List Lexeme) :
    run.foldl (fun flags t => flags.raise t.token) flags = flags.join (raised run) := by
  induction run generalizing flags with
  | nil => exact flags.join_unset.symm
  | cons t run ih =>
      rw [raised, List.foldl_cons, List.foldl_cons, ih, ih (unset.raise t.token), raise_eq_join,
        join_assoc]

theorem Flags.raised_cons (t : Lexeme) (run : List Lexeme) :
    raised (t :: run) = (unset.raise t.token).join (raised run) :=
  foldl_raise _ run

theorem Flags.raised_append (first second : List Lexeme) :
    raised (first ++ second) = (raised first).join (raised second) := by
  rw [raised, List.foldl_append]
  exact foldl_raise _ second

namespace Pattern

/-- The lexemes of a derivation raise the flags of its phrases. -/
theorem Derivation.raised {phrases : List Phrase} {run : List Lexeme} {a b : Position}
    (h : Derivation phrases a run b) : Flags.raised run = phrasesFlags phrases := by
  induction h with
  | nil => rfl
  | token _ _ _ ih => rw [Flags.raised_cons, ih, phrasesFlags_cons, Phrase.flags]
  | ahead _ _ _ ih => exact ih.trans (Flags.unset_join _).symm
  | phrase hp _ _ ihParts ih =>
      rw [Flags.raised_append, ihParts, ih, phrasesFlags_of_production hp, phrasesFlags_cons]
  | @destructor d _ _ _ _ _ _ _ _ _ ihParts ih =>
      have hshape : phrasesFlags d.template.phrases = .unset := by
        cases d.template <;> rfl
      rw [Flags.raised_append, ihParts, ih, hshape, phrasesFlags_cons]
      rfl

end Pattern

namespace Chain

theorem Run.raised {text : List Char} {run : List Lexeme} {chain : Chain}
    (h : Run text run chain) : Flags.raised run = .ofChain chain := by
  cases h with
  | blank _ => rfl
  | steps hrun _ => exact hrun.raised.trans (Pattern.phrasesFlags_singleton _)

theorem isWild_of_not_isMatch {chain : Chain} (h : chain.isMatch = false) :
    chain.isWild = false := by
  refine Bool.eq_false_iff.mpr fun hwild => ?_
  rw [isMatch_of_isWild hwild] at h
  cases h

theorem hasExclusion_of_not_isWild {chain : Chain} (h : chain.isWild = false) :
    chain.hasExclusion = false := by
  refine Bool.eq_false_iff.mpr fun hexclusion => ?_
  rw [isWild_of_hasExclusion hexclusion] at h
  cases h

theorem segments_of_isMatch {chain : Chain} (h : chain.isMatch = true) : chain.segments = [] := by
  rw [segments, if_pos h]

end Chain

/-- A path is classified as the chain that it comes from. -/
theorem Path.classification_ofChain (text : String) (chain : Chain) :
    (ofChain text chain).isMatch = chain.isMatch ∧ (ofChain text chain).isWild = chain.isWild ∧
      (ofChain text chain).hasExclusion = chain.hasExclusion ∧
      (ofChain text chain).segments = chain.segments ∧
      (ofChain text chain).chain? = if chain.isMatch then some chain else none := by
  rw [ofChain]
  cases hmatch : chain.isMatch with
  | true => exact ⟨rfl, rfl, rfl, (Chain.segments_of_isMatch hmatch).symm, rfl⟩
  | false =>
      have hwild := Chain.isWild_of_not_isMatch hmatch
      exact ⟨rfl, hwild.symm, (Chain.hasExclusion_of_not_isWild hwild).symm, rfl, rfl⟩

namespace Chain

/-- A text is classified by the operators in its chain, at whatever depth, and its path with it.
Without operators every step has a segment. -/
theorem classification_of_parse {text : String} {chain : Chain}
    (h : Chain.parse text = .ok chain) :
    (chain.isMatch = true ↔ ∃ step, Step.Within step chain ∧
      (step.isWildcard = true ∨ ∃ name bracketed, step = .name name bracketed true)) ∧
    (chain.isWild = true ↔ ∃ step, Step.Within step chain ∧ step.isWildcard = true) ∧
    (chain.hasExclusion = true ↔ ∃ members, Step.Within (.group true members) chain) ∧
    (∀ run, Run text.toList run chain → Flags.raised run = .ofChain chain) ∧
    (chain.hasExclusion = true → chain.isWild = true) ∧
    (chain.isWild = true → chain.isMatch = true) ∧
    (chain.isMatch = false → List.Forall₂ (fun step segment => step.segment? = some segment)
      chain chain.segments) ∧
    (chain.isMatch = true → chain.segments = []) ∧
    ∃ path, Path.compile (.text text) = .ok path ∧ path.isMatch = chain.isMatch ∧
      path.isWild = chain.isWild ∧ path.hasExclusion = chain.hasExclusion ∧
      path.segments = chain.segments ∧
      path.chain? = if chain.isMatch then some chain else none := by
  have hmatch : chain.isMatch = true ↔ ∃ step, Step.Within step chain ∧
      (step.isWildcard = true ∨ ∃ name bracketed, step = .name name bracketed true) := by
    simp only [isMatch_iff, Step.isOperator_iff]
  have hpath : Path.compile (.text text) = .ok (Path.ofChain text chain) := by
    rw [Path.compile, Path.ofText, h]
    rfl
  exact ⟨hmatch, isWild_iff, hasExclusion_iff, fun run hrun => hrun.raised,
    isWild_of_hasExclusion, isMatch_of_isWild, forall₂_segments, segments_of_isMatch,
    _, hpath, Path.classification_ofChain text chain⟩

/-- An exclusion group in a member of another group makes the whole pattern one that excludes. -/
theorem classification_of_nested_exclusion :
    let chain : Chain := [.name "a" false false, .group false [[.name "b" false true],
      [.group true [[.name "c" false false]], .name "d" false false]]]
    let literal : Chain := [.name "a" false false, .name "0" true false,
      .destructor ⟨.object [.plain "b"], "{b}"⟩]
    Chain.parse "a.*(b~,*(!c).d)" = .ok chain ∧
      Flags.ofChain chain = ⟨true, true, true⟩ ∧ chain.segments = [] ∧
      (∃ run, Run "a.*(b~,*(!c).d)".toList run chain ∧ Flags.raised run = ⟨true, true, true⟩) ∧
      (∃ path, Path.compile (.text "a.*(b~,*(!c).d)") = .ok path ∧ path.chain? = some chain) ∧
      Chain.parse "a[0].{b}" = .ok literal ∧ literal.isMatch = false ∧
      literal.segments.length = 3 := by
  intro chain literal
  have hparse : Chain.parse "a.*(b~,*(!c).d)" = .ok chain := by decide +kernel
  have hparse' : Chain.parse "a[0].{b}" = .ok literal := by decide +kernel
  obtain ⟨-, -, hexclusion, hraised, hwild, hmatch, -, hsegments, path, hpath, -, -, -, -, htree⟩ :=
    classification_of_parse hparse
  obtain ⟨-, -, -, -, -, -, hliteral, -⟩ := classification_of_parse hparse'
  have hinner : Step.Within (.group true [[.name "c" false false]])
      [.group true [[.name "c" false false]], .name "d" false false] :=
    .here List.mem_cons_self
  have hdeep : chain.hasExclusion = true :=
    hexclusion.mpr ⟨_, .member (.tail _ (.head _)) (.tail _ (.head _)) hinner⟩
  have hflags : Flags.ofChain chain = ⟨true, true, true⟩ := by
    rw [Flags.ofChain, hmatch (hwild hdeep), hwild hdeep, hdeep]
  obtain ⟨run, hrun⟩ := parse_eq_ok_iff_exists_run.mp hparse
  rw [hmatch (hwild hdeep), if_pos rfl] at htree
  refine ⟨hparse, hflags, hsegments (hmatch (hwild hdeep)), ⟨run, hrun, ?_⟩,
    ⟨path, hpath, htree⟩, hparse', rfl, (hliteral rfl).length_eq.symm⟩
  exact (hraised run hrun).trans hflags

end Chain

end DocPath
