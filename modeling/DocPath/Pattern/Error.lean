import DocPath.Pattern.Token

/-! What can be wrong with a pattern, and how each fault is worded. -/

namespace DocPath

/-- What the grammar allows at a place where something else was found. -/
inductive Expected where
  | segment
  | dotOrEnd
  | arrayIndex
  | closingBracket
  | commaOrParen
  | rangeBound
  | propertyName
  | commaOrBrace
  | commaOrBracket
  | slot
  | closingVerbatim
deriving DecidableEq

def Expected.describe : Expected → String
  | .segment => "segment"
  | .dotOrEnd => "'.' or end of pattern"
  | .arrayIndex => "array index"
  | .closingBracket => "']'"
  | .commaOrParen => "',' or ')'"
  | .rangeBound => "range bound"
  | .propertyName => "property name"
  | .commaOrBrace => r"',' or '}'"
  | .commaOrBracket => "',' or ']'"
  | .slot => r"identifier, '{' or '['"
  | .closingVerbatim => "']]'"

/-- The causes for which a text is no pattern. Positions count characters. -/
inductive ParseError where
  | unexpectedToken (position : Nat) (found : Token) (expected : Expected)
  | unexpectedEnd (expected : Expected)
  | emptyIdentifier (position : Nat)
  | strayBang (position : Nat)
  | emptyRange (position : Nat)
  | invalidBound (text : String)
  | segmentAfterDestructor (position : Nat)
  | notDestructor (source : String)
deriving DecidableEq

namespace ParseError

/-- The grammar counts positions from the end of the text; `locate` counts them from its
start, for a text of `size` characters. -/
def locate (size : Nat) : ParseError → ParseError
  | unexpectedToken left found expected => unexpectedToken (size - left) found expected
  | unexpectedEnd expected => unexpectedEnd expected
  | emptyIdentifier left => emptyIdentifier (size - left)
  | strayBang left => strayBang (size - left)
  | emptyRange left => emptyRange (size - left)
  | invalidBound text => invalidBound text
  | segmentAfterDestructor left => segmentAfterDestructor (size - left)
  | notDestructor source => notDestructor source

def message : ParseError → String
  | unexpectedToken position found expected =>
      "Unexpected token '" ++ found.describe ++ "' at position " ++ toString position ++
        ", expected " ++ expected.describe
  | unexpectedEnd expected => "Unexpected end of pattern, expected " ++ expected.describe
  | emptyIdentifier position => invalid ("Empty identifier at position " ++ toString position)
  | strayBang position =>
      invalid ("'!' must lead the group, found at position " ++ toString position)
  | emptyRange position => invalid ("Empty range at position " ++ toString position)
  | invalidBound text => invalid ("Invalid range bound: " ++ text)
  | segmentAfterDestructor position =>
      invalid ("Destructuring expression must be the last segment (position " ++
        toString position ++ ")")
  | notDestructor source => invalid ("Not a destructuring expression: " ++ source)
where
  invalid (text : String) : String := "Invalid path syntax: " ++ text

end ParseError

end DocPath
