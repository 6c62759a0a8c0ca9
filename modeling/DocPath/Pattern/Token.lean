/-! Tokens of path patterns. -/

namespace DocPath

/-- The reserved characters of patterns, each a token of its own. -/
inductive Mark where
  | star
  | bang
  | dot
  | tilde
  | comma
  | colon
  | parenL
  | parenR
  | bracketL
  | bracketR
  | braceL
  | braceR
deriving DecidableEq

namespace Mark

def char : Mark → Char
  | star => '*'
  | bang => '!'
  | dot => '.'
  | tilde => '~'
  | comma => ','
  | colon => ':'
  | parenL => '('
  | parenR => ')'
  | bracketL => '['
  | bracketR => ']'
  | braceL => '{'
  | braceR => '}'

def all : List Mark :=
  [star, bang, dot, tilde, comma, colon, parenL, parenR, bracketL, bracketR, braceL, braceR]

def ofChar? (c : Char) : Option Mark :=
  all.find? fun m => m.char == c

theorem ofChar?_char (m : Mark) : ofChar? m.char = some m := by
  cases m <;> decide

theorem ofChar?_eq_some_iff {c : Char} {m : Mark} : ofChar? c = some m ↔ c = m.char := by
  constructor
  · intro h
    have hm : (m.char == c) = true := List.find?_some (p := fun m : Mark => m.char == c) h
    exact (eq_of_beq hm).symm
  · rintro rfl
    exact ofChar?_char m

end Mark

/-- Reserved characters stand for themselves in a name only behind a backslash. -/
def isReserved (c : Char) : Bool := (Mark.ofChar? c).isSome

/-- Names and verbatim bodies come with their escapes already resolved. -/
inductive Token where
  | name (text : String)
  | verbatim (body : String)
  | mark (m : Mark)
  | eof
deriving DecidableEq

/-- Error messages show a token as this text. -/
def Token.describe : Token → String
  | .name text => text
  | .verbatim body => "[[" ++ body ++ "]]"
  | .mark m => String.singleton m.char
  | .eof => "end of pattern"

end DocPath
