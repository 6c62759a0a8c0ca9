import DocPath.Pattern.Chain

/-! Matching of candidates against chains. A candidate is a list of rendered segments; a
position in it is the list of those still to come. -/

namespace DocPath

/-- The more specific a match, the higher its score. A failed match scores zero. -/
structure MatchRecord where
  matched : Bool
  score : Nat
deriving DecidableEq

def MatchRecord.unmatched : MatchRecord := ⟨false, 0⟩

namespace Score

/-! What a step adds to the score of a match. -/

def literal : Nat := 4

def expanded : Nat := 3

def range : Nat := 2

def any : Nat := 1

def excluded : Nat := 0

end Score

/-- Where a match came to stand, and what it scored. -/
abbrev Stand := List String × Nat

/-- A match carried on from where it stands. -/
def Stand.andThen (stand : Stand) (next : List String → Option Stand) : Option Stand :=
  (next stand.1).map fun s => (s.1, stand.2 + s.2)

/-- A chain may end before the candidate does only in a group, and only if every group around
it goes on. The list says of each open group whether it does. -/
def mayEnd (open_ : List Bool) (position : List String) : Bool :=
  position.length ≤ 1 || (!open_.isEmpty && open_.all id)

namespace Step

/-- The score of a literal step on a text, if it accepts the text. -/
def literalScore? (step : Step) (text : String) : Option Nat :=
  match step with
  | .name own _ false => if text = own then some Score.literal else none
  | .name own _ true =>
      if own.toList.isPrefixOf text.toList then some Score.expanded else none
  | .verbatim body => if stripBlanks text = body then some Score.literal else none
  | .destructor d => if stripBlanks text = d.source then some Score.literal else none
  | .any | .range _ | .group .. => none

/-- The score of a bare or range wildcard on a text, if it accepts the text. -/
def wildcardScore? (step : Step) (text : String) : Option Nat :=
  match step with
  | .any => some Score.any
  | .range bounds =>
      match Numeral.signedWord? text.toList with
      | some n => if bounds.contains n then some Score.range else none
      | none => none
  | _ => none

end Step

mutual

/-- Matches a chain at a position, inside the given open groups. -/
def matchChain (open_ : List Bool) : Chain → List String → Option Stand
  | [], position => some (position, 0)
  | step :: rest, position =>
      matchStep open_ rest.isEmpty step position fun stand =>
        if rest.isEmpty then some (stand, 0) else matchChain open_ rest stand.tail

/-- Matches one step, and what follows it by `next`. `last` says that nothing does. -/
def matchStep (open_ : List Bool) (last : Bool) :
    Step → List String → (List String → Option Stand) → Option Stand
  | .group true members, position, next =>
      if position.isEmpty then next position
      else if matchesAny ((!last) :: open_) members position then none
      else Stand.andThen (position, Score.excluded) next
  | .group false members, position, next =>
      if position.isEmpty then none
      else matchFirst ((!last) :: open_) members position next
  | _, [], _ => none
  | step, text :: more, next =>
      match step.wildcardScore? text with
      | some score => Stand.andThen (text :: more, score) next
      | none =>
        match step.literalScore? text with
        | some score =>
            if !last || mayEnd open_ (text :: more) then Stand.andThen (text :: more, score) next
            else none
        | none => none

/-- Whether some member matches. -/
def matchesAny (open_ : List Bool) : List Chain → List String → Bool
  | [], _ => false
  | member :: others, position =>
      (matchChain open_ member position).isSome || matchesAny open_ others position

/-- The first member that matches, so that what follows the group does too. -/
def matchFirst (open_ : List Bool) :
    List Chain → List String → (List String → Option Stand) → Option Stand
  | [], _, _ => none
  | member :: others, position, next =>
      match (matchChain open_ member position).bind (Stand.andThen · next) with
      | some stand => some stand
      | none => matchFirst open_ others position next

end

/-- Matches a whole candidate. The empty candidate matches nothing. -/
def Chain.matchRecord (chain : Chain) (candidate : List Segment) : MatchRecord :=
  if candidate.isEmpty then .unmatched
  else
    match matchChain [] chain (candidate.map Segment.render) with
    | some stand => ⟨true, stand.2⟩
    | none => .unmatched

/-- Literal paths match when their segments render alike. -/
def matchSegments (left right : List Segment) : MatchRecord :=
  if left.map Segment.render = right.map Segment.render then
    ⟨true, Score.literal * left.length⟩
  else .unmatched

end DocPath
