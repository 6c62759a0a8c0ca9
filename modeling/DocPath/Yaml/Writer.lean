import DocPath.Yaml.Schema

/-! Documents written in block style. A block is a list of lines, written without regard to
where it will stand; what holds it indents it. -/

namespace DocPath

namespace Yaml

/-! ## Scalars -/

/-- Characters that may stand in a text as they are. -/
def isShown (c : Char) : Bool :=
  let n := c.toNat
  n == 0x0A || (0x20 ≤ n && n ≤ 0x7E) || (0xA0 ≤ n && n ≤ 0xD7FF) ||
    (0xE000 ≤ n && n ≤ 0xFFFD && n != 0xFEFF) || 0x10000 ≤ n

def isLineBreak (c : Char) : Bool :=
  c == '\n' || c == '\r' || c == '\u0085' || c == '\u2028' || c == '\u2029'

/-- Whether what follows a character is a blank, a line end or nothing. -/
def blankAhead : List Char → Bool
  | [] => true
  | c :: _ => c == ' ' || c == '\t' || isLineBreak c

/-- Characters that cannot start a plain scalar. -/
def opensOther (c : Char) : Bool := "#,[]{}&*!|>'\"%@`".toList.contains c

/-- Whether something behind the first character would end a plain scalar: `: ` or ` #`. -/
def endsPlain (blankBefore : Bool) : List Char → Bool
  | [] => false
  | c :: rest =>
      (c == ':' && blankAhead rest) || (c == '#' && blankBefore) ||
        endsPlain (blankAhead [c]) rest

/-- Whether a text would be taken for something else than a scalar. -/
def isIndicated (text : List Char) : Bool :=
  match text with
  | [] => false
  | c :: rest =>
      opensOther c || ((c == '?' || c == ':' || c == '-') && blankAhead rest) ||
        ['-', '-', '-'].isPrefixOf text || ['.', '.', '.'].isPrefixOf text ||
        endsPlain (blankAhead [c]) rest

/-- Whether a character of one kind is followed by one of another. -/
def hasPair (p q : Char → Bool) : List Char → Bool
  | a :: b :: rest => (p a && q b) || hasPair p q (b :: rest)
  | _ => false

/-- The ways to write a scalar. -/
inductive Style where
  | plain
  | single
  | double
  | literal
deriving DecidableEq

/-- The style that the meaning of a text asks for: quotes around what would not be read as
text, and lines set off for what has line ends. -/
def wantedStyle (text : String) : Style :=
  if text.toList.contains '\n' then .literal
  else
    match Plain.ofText text with
    | .text => if isPaddedDigits text.toList then .single else .plain
    | _ => .single

def hasLineBreak (text : String) : Bool := text.toList.any isLineBreak

def isSpaceChar (c : Char) : Bool := c == ' '

/-- The style that a text can be written in, given the one that is wanted. A literal cannot be
an implicit key. -/
def style (text : String) (implicitKey : Bool) : Style :=
  let chars := text.toList
  let hidden := chars.any (fun c => !isShown c) || hasPair isSpaceChar isLineBreak chars
  let edge (p : Char → Bool) := chars.head?.any p || chars.getLast?.any p
  let quotes : Style := if hidden || hasPair isLineBreak isSpaceChar chars then .double else .single
  let wanted := if implicitKey && hasLineBreak text then .double else wantedStyle text
  match wanted with
  | .plain =>
      if hidden || edge isSpaceChar || hasLineBreak text || isIndicated chars then quotes
      else .plain
  | .single => quotes
  | .literal =>
      if hidden || chars.getLast? == some ' ' || chars.isEmpty || implicitKey then .double
      else .literal
  | .double => .double

def hexDigits (width n : Nat) : List Char :=
  let ds := (Nat.toDigits 16 n).map Char.toUpper
  List.replicate (width - ds.length) '0' ++ ds

/-- A character between double quotes. -/
def escape (c : Char) : List Char :=
  let short : List (Char × Char) :=
    [('\x00', '0'), ('\x07', 'a'), ('\x08', 'b'), ('\t', 't'), ('\n', 'n'), ('\x0b', 'v'),
      ('\x0c', 'f'), ('\r', 'r'), ('\x1b', 'e'), ('"', '"'), ('\\', '\\'), ('\u0085', 'N'),
      ('\u00a0', '_'), ('\u2028', 'L'), ('\u2029', 'P')]
  if isShown c && !isLineBreak c && c != '"' && c != '\\' then [c]
  else
    match short.lookup c with
    | some e => ['\\', e]
    | none =>
        if c.toNat ≤ 0xFF then '\\' :: 'x' :: hexDigits 2 c.toNat
        else if c.toNat ≤ 0xFFFF then '\\' :: 'u' :: hexDigits 4 c.toNat
        else '\\' :: 'U' :: hexDigits 8 c.toNat

/-! ## Lines

A line keeps the character that ends it, if a scalar has one there. Lines that hold nothing
else are never indented. -/

/-- The lines of a text. -/
def splitLines : List Char → List (List Char)
  | [] => []
  | c :: rest =>
      if isLineBreak c then [c] :: splitLines rest
      else
        match splitLines rest with
        | line :: lines => (c :: line) :: lines
        | [] => [[c]]

/-- A line one level further in. -/
def indentLine (line : List Char) : List Char :=
  if line.all isLineBreak then line else ' ' :: ' ' :: line

/-- How the end of a literal is marked: nothing behind one line end, `-` behind none and `+`
behind several. -/
def chompingMark (chars : List Char) : List Char :=
  match chars.reverse with
  | [] => ['-']
  | last :: before =>
      if !isLineBreak last then ['-'] else if before.head?.all isLineBreak then ['+'] else []

/-- The mark of a literal. It gives the indentation if the first line does not show it. -/
def literalHeader (chars : List Char) : List Char :=
  let indentation := if chars.head?.any (fun c => c == ' ' || isLineBreak c) then ['2'] else []
  '|' :: indentation ++ chompingMark chars

/-- The lines of a text as a scalar. All but the first are indented. -/
def textLines (text : String) (implicitKey : Bool) : List (List Char) :=
  let chars := text.toList
  match style text implicitKey with
  | .plain => [chars]
  | .single =>
      let double (c : Char) : List Char := if c = '\'' then ['\'', '\''] else [c]
      match splitLines ('\'' :: chars.flatMap double ++ ['\'']) with
      | first :: rest => first :: rest.map indentLine
      | [] => []
  | .double => ['"' :: chars.flatMap escape ++ ['"']]
  | .literal => literalHeader chars :: (splitLines chars).map indentLine

/-- Whether a document is written as a block of lines, one at least for each item. -/
def isBlock : Document → Bool
  | .array (_ :: _) | .object (_ :: _) => true
  | _ => false

/-- The lines of a document behind a mark of one character. A block starts on the line of the
mark, and all of it is indented. -/
def markedLines (mark : Char) (block : Bool) (lines : List (List Char)) : List (List Char) :=
  match lines with
  | [] => [[mark]]
  | first :: rest => (mark :: ' ' :: first) :: (if block then rest.map indentLine else rest)

/-- Keys of more bytes than this are marked by `?`, as are keys with line ends. -/
def keyLimit : Nat := 128

/-- The lines of an entry, from those of its value. A block stands below its key; only the
lines of an object are indented there. -/
def entryLines (key : String) (value : Document) (lines : List (List Char)) :
    List (List Char) :=
  if hasLineBreak key || keyLimit < key.utf8ByteSize then
    markedLines '?' false (textLines key false) ++ markedLines ':' (isBlock value) lines
  else
    let key := (textLines key true).flatten ++ [':']
    if isBlock value then
      key :: (if value matches .object _ then lines.map indentLine else lines)
    else
      match lines with
      | [] => [key]
      | first :: rest => (key ++ ' ' :: first) :: rest

/-- The lines of a document. -/
def lines : Document → List (List Char)
  | .null => [['n', 'u', 'l', 'l']]
  | .bool true => [['t', 'r', 'u', 'e']]
  | .bool false => [['f', 'a', 'l', 's', 'e']]
  | .number n => [n.text .yaml]
  | .text s => textLines s false
  | .array [] => [['[', ']']]
  | .array items => items.flatMap fun item => markedLines '-' (isBlock item) (lines item)
  | .object [] => [['{', '}']]
  | .object entries => entries.flatMap fun e => entryLines e.1 e.2 (lines e.2)
termination_by doc => sizeOf doc
decreasing_by
  · rename_i h
    have := List.sizeOf_lt_of_mem h
    simp only [Document.array.sizeOf_spec]
    omega
  · rename_i h
    have := List.sizeOf_lt_of_mem h
    have : sizeOf e = 1 + sizeOf e.1 + sizeOf e.2 := rfl
    simp only [Document.object.sizeOf_spec]
    omega

/-- A line that ends. -/
def endLine (line : List Char) : List Char :=
  if line.getLast?.any isLineBreak then line else line ++ ['\n']

end Yaml

/-- A document in block style. -/
def Document.toYaml (doc : Document) : String :=
  String.ofList ((Yaml.lines doc).flatMap Yaml.endLine)

end DocPath
