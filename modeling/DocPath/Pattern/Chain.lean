import DocPath.Segment
import DocPath.Text.Blank

/-! Chains: patterns as lists of steps, one for each segment they stand against. -/

namespace DocPath

/-- Inclusive bounds on a number. A bound that is left out does not constrain. -/
structure Bounds where
  low : Option Int
  high : Option Int
deriving DecidableEq

def Bounds.contains (b : Bounds) (n : Int) : Bool :=
  b.low.all (· ≤ n) && b.high.all (n ≤ ·)

/-- The steps of a pattern. A name may be written as an index (`a[0]`) and may stand for
every text that it begins (`a~`). A wildcard is bare, or filtered by a range, or by a group of
chains of which one has to fit (`*(a,b)`) or none may (`*(!a,b)`). -/
inductive Step where
  | name (text : String) (bracketed expand : Bool)
  | verbatim (text : String)
  | any
  | range (bounds : Bounds)
  | group (exclude : Bool) (members : List (List Step))
  | destructor (d : Destructor)

/-- The empty chain is the empty pattern. -/
abbrev Chain := List Step

namespace Step

def isWildcard : Step → Bool
  | .any | .range _ | .group .. => true
  | .name .. | .verbatim _ | .destructor _ => false

/-- Operators are the steps that can stand against more than one text. -/
def isOperator : Step → Bool
  | .name _ _ expand => expand
  | s => s.isWildcard

/-- A step without operators is a segment; wildcards have none. -/
def segment? : Step → Option Segment
  | .name text .. => some (.key (.ofName text))
  | .verbatim text => some (.key (.name text))
  | .destructor d => some (.destructor d)
  | .any | .range _ | .group .. => none

mutual

/-- Whether an exclusion group stands in a step, at any depth. -/
def hasExclusion : Step → Bool
  | .group exclude members => exclude || membersHaveExclusion members
  | _ => false

def chainHasExclusion : List Step → Bool
  | [] => false
  | s :: rest => s.hasExclusion || chainHasExclusion rest

def membersHaveExclusion : List (List Step) → Bool
  | [] => false
  | m :: rest => chainHasExclusion m || membersHaveExclusion rest

end

end Step

namespace Chain

/-- Match patterns contain an operator; all other chains are literal. -/
def isMatch (chain : Chain) : Bool := chain.any Step.isOperator

def isWild (chain : Chain) : Bool := chain.any Step.isWildcard

def hasExclusion (chain : Chain) : Bool := Step.chainHasExclusion chain

/-- The segments of a literal chain. Match patterns have none. -/
def segments (chain : Chain) : List Segment :=
  if chain.isMatch then [] else chain.filterMap Step.segment?

theorem not_isMatch_iff {chain : Chain} :
    chain.isMatch = false ↔ ∀ step ∈ chain, step.isOperator = false := by
  simp [isMatch]

theorem segments_of_not_isMatch {chain : Chain} (h : chain.isMatch = false) :
    chain.segments = chain.filterMap Step.segment? := by
  rw [segments, h, if_neg (by simp)]

end Chain

end DocPath
