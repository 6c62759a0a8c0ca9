/-! Places in a block-style text, and what can be seen from them. -/

namespace DocPath.Yaml

/-- Characters that end a line. -/
def isBreak (c : Char) : Bool := c == '\n' || c == '\u2028' || c == '\u2029'

/-- Characters that separate tokens within a line. -/
def isGap (c : Char) : Bool := c == ' ' || c == '\t'

/-- Whether a text starts with a gap or a line end, or is over. -/
def atGap : List Char → Bool
  | [] => true
  | c :: _ => isGap c || isBreak c

/-- All ways to end a line but two are read as one character. -/
def normalizeBreaks : List Char → List Char
  | [] => []
  | '\r' :: '\n' :: rest => '\n' :: normalizeBreaks rest
  | c :: rest => (if c == '\r' || c == '\u0085' then '\n' else c) :: normalizeBreaks rest

/-- Whether a character may stand in a text at all. -/
def isAllowed (c : Char) : Bool :=
  let n := c.toNat
  n == 0x09 || n == 0x0A || n == 0x0D || (0x20 ≤ n && n ≤ 0x7E) || n == 0x85 ||
    (0xA0 ≤ n && n ≤ 0xD7FF) || (0xE000 ≤ n && n ≤ 0xFFFD) || 0x10000 ≤ n

/-- The text still to be read, the number of characters before it, and the line and column
where it starts. -/
structure Cursor where
  rest : List Char
  index : Nat
  line : Nat
  column : Nat

namespace Cursor

def start (text : List Char) : Cursor := ⟨text, 0, 0, 0⟩

/-- The cursor behind `size` characters, none of which ends a line. -/
def skip (c : Cursor) (size : Nat) : Cursor :=
  ⟨c.rest.drop size, c.index + size, c.line, c.column + size⟩

/-- The cursor behind its next character, which ends a line. -/
def nextLine (c : Cursor) : Cursor := ⟨c.rest.drop 1, c.index + 1, c.line + 1, 0⟩

/-- The cursor in front of the next character that fails a test, on the same line. -/
def skipWhile (c : Cursor) (p : Char → Bool) : Cursor := c.skip (c.rest.takeWhile p).length

/-- The cursor at the end of its line. -/
def toBreak (c : Cursor) : Cursor := c.skipWhile fun x => !isBreak x

/-- Whether `---` or `...` stands alone at the start of a line here. -/
def atMarker (c : Cursor) : Bool :=
  c.column == 0 &&
    match c.rest with
    | '-' :: '-' :: '-' :: rest => atGap rest
    | '.' :: '.' :: '.' :: rest => atGap rest
    | _ => false

end Cursor

end DocPath.Yaml
