import DocPath.Pattern.Matching
import DocPath.Pattern.Parser

/-! Compiled paths, what can be asked to compile or to be done with one, and matching between
them. -/

namespace DocPath

/-- A literal path is a list of segments with the text that stands for it. A match pattern
keeps its text and its chain. -/
inductive Path where
  | literal (entire : String) (segments : List Segment)
  | pattern (text : String) (chain : Chain)

namespace Path

/-- A literal path under its canonical text. -/
def ofSegments (segments : List Segment) : Path :=
  .literal (joinSegments segments) segments

def entire : Path → String
  | .literal entire _ => entire
  | .pattern text _ => text

/-- Match patterns have no segments. -/
def segments : Path → List Segment
  | .literal _ segments => segments
  | .pattern .. => []

/-- Literal paths have no chain. -/
def chain? : Path → Option Chain
  | .literal .. => none
  | .pattern _ chain => some chain

def isMatch : Path → Bool
  | .literal .. => false
  | .pattern .. => true

def isWild : Path → Bool
  | .literal .. => false
  | .pattern _ chain => chain.isWild

def hasExclusion : Path → Bool
  | .literal .. => false
  | .pattern _ chain => chain.hasExclusion

/-- The path that a chain read from `text` stands for. -/
def ofChain (text : String) (chain : Chain) : Path :=
  if chain.isMatch then .pattern text chain else ofSegments chain.segments

/-- Compiles a text. -/
def ofText (text : String) : Except ParseError Path :=
  (Chain.parse text).map (ofChain text)

theorem ofSegments_inj {first second : List Segment} :
    ofSegments first = ofSegments second ↔ first = second := by
  constructor
  · intro h
    exact congrArg segments h
  · rintro rfl
    rfl

theorem ofText_cases {text : String} {path : Path} (h : ofText text = .ok path) :
    ∃ chain, Chain.parse text = .ok chain ∧
      (chain.isMatch = false ∧ path = ofSegments chain.segments ∨
        chain.isMatch = true ∧ path = .pattern text chain) := by
  rw [ofText] at h
  cases hparse : Chain.parse text with
  | error fault =>
      rw [hparse] at h
      cases h
  | ok chain =>
      rw [hparse] at h
      obtain rfl : ofChain text chain = path := Except.ok.inj h
      refine ⟨chain, rfl, ?_⟩
      rw [ofChain]
      cases chain.isMatch with
      | false => exact Or.inl ⟨rfl, rfl⟩
      | true => exact Or.inr ⟨rfl, rfl⟩

end Path

/-- Anything a path can be compiled from. -/
inductive Pattern where
  | text (text : String)
  | segments (raw : List Segment)
  | path (p : Path)

/-- What a path can be asked to do. -/
inductive Operation where
  | getIn
  | setIn
  | deleteIn
  | existIn
  | concat
  | slice
  | push
  | pop
  | splice
  | iter
  | forEach
  | map
  | reduce
  | nearestChild
  | matching
  | includes
deriving DecidableEq

def Operation.describe : Operation → String
  | .getIn => "get_in"
  | .setIn => "set_in"
  | .deleteIn => "delete_in"
  | .existIn => "exist_in"
  | .concat => "concat"
  | .slice => "slice"
  | .push => "push"
  | .pop => "pop"
  | .splice => "splice"
  | .iter => "iter"
  | .forEach => "for_each"
  | .map => "map"
  | .reduce => "reduce"
  | .nearestChild => "nearest_child_path_by"
  | .matching => "match"
  | .includes => "includes"

/-- A text that is no pattern, or a path that is of the wrong kind for an operation. -/
inductive PathError where
  | parse (fault : ParseError)
  | wrongKind (entire : String) (operation : Operation)
deriving DecidableEq

def PathError.message : PathError → String
  | .parse fault => fault.message
  | .wrongKind entire operation =>
      "\"" ++ entire ++ "\" cannot be used with " ++ operation.describe

namespace Path

/-- The segments a raw name contributes: those of the literal pattern it spells without its
blanks, or else itself. -/
def normalizeText (raw : String) : List Segment :=
  let stripped := stripBlanks raw
  match Chain.parse stripped with
  | .ok chain => if chain.isMatch then [.key (.name stripped)] else chain.segments
  | .error _ => [.key (.name stripped)]

theorem normalizeText_of_literal {text : String} {chain : Chain}
    (hparse : Chain.parse (stripBlanks text) = .ok chain) (hliteral : chain.isMatch = false) :
    normalizeText text = chain.segments := by
  rw [normalizeText, hparse]
  exact if_neg (by simp [hliteral])

theorem normalizeText_of_not_literal {text : String}
    (h : ∀ chain, Chain.parse (stripBlanks text) = .ok chain → chain.isMatch = true) :
    normalizeText text = [.key (.name (stripBlanks text))] := by
  rw [normalizeText]
  cases hparse : Chain.parse (stripBlanks text) with
  | error fault => rfl
  | ok chain => exact if_pos (h chain hparse)

theorem normalizeText_cases (text : String) :
    (∃ chain, Chain.parse (stripBlanks text) = .ok chain ∧ chain.isMatch = false ∧
      normalizeText text = chain.segments) ∨
    (∀ chain, Chain.parse (stripBlanks text) = .ok chain → chain.isMatch = true) ∧
      normalizeText text = [.key (.name (stripBlanks text))] := by
  by_cases hread : ∃ chain, Chain.parse (stripBlanks text) = .ok chain ∧ chain.isMatch = false
  · obtain ⟨chain, hparse, hliteral⟩ := hread
    exact Or.inl ⟨chain, hparse, hliteral, normalizeText_of_literal hparse hliteral⟩
  · have hnot : ∀ chain, Chain.parse (stripBlanks text) = .ok chain → chain.isMatch = true := by
      simpa using hread
    exact Or.inr ⟨hnot, normalizeText_of_not_literal hnot⟩

/-- Only names are read once more; indices and destructuring expressions stay as they are. -/
def normalizeSegment : Segment → List Segment
  | .key (.name raw) => normalizeText raw
  | segment => [segment]

/-- Compiles a pattern. A list keeps the text it was given as. -/
def compile : Pattern → Except ParseError Path
  | .text text => ofText text
  | .segments raw => .ok (.literal (joinSegments raw) (raw.flatMap normalizeSegment))
  | .path path => .ok path

/-- The segments a pattern contributes when it is put into a path. -/
def contribution : Pattern → List Segment
  | .text text => normalizeText text
  | .segments raw => raw.flatMap normalizeSegment
  | .path path => path.segments

/-- The segments of a path, for an operation that needs a literal one. -/
def literalSegments (path : Path) (operation : Operation) : Except PathError (List Segment) :=
  match path with
  | .literal _ segments => .ok segments
  | .pattern text _ => .error (.wrongKind text operation)

/-! ## Matching between paths -/

/-- Matches two paths, of which at most one may be a match pattern. -/
def matchRecord (path other : Path) : Except PathError MatchRecord :=
  match path, other with
  | .pattern _ _, .pattern text _ => .error (.wrongKind text .matching)
  | .literal _ segments, .pattern _ chain => .ok (chain.matchRecord segments)
  | .pattern _ chain, .literal _ segments => .ok (chain.matchRecord segments)
  | .literal _ left, .literal _ right => .ok (matchSegments left right)

/-- A literal path includes its prefixes, a match pattern the paths it matches. -/
def includes (path other : Path) : Except PathError Bool :=
  match path, other with
  | _, .pattern text _ => .error (.wrongKind text .includes)
  | .pattern _ chain, .literal _ segments => .ok (chain.matchRecord segments).matched
  | .literal _ segments, .literal _ start =>
      .ok ((start.map Segment.render).isPrefixOf (segments.map Segment.render))

/-- Of the records for a name and for its alias, the one with the higher score decides when
the path excludes something; otherwise either may match. -/
def decideAlias (path : Path) (name aliased : MatchRecord) : Bool :=
  if path.hasExclusion then
    if aliased.score ≤ name.score then name.matched else aliased.matched
  else name.matched || aliased.matched

end Path

end DocPath
