import DocPath.Pattern.Error
import DocPath.Text.Blank

/-! Lexemes: tokens together with the stretch of text they were read from. -/

namespace DocPath

/-- Reads a name. A backslash keeps the character behind it, whatever that is; a backslash at
the end of the text is dropped. -/
def readName : List Char → List Char × List Char
  | [] => ([], [])
  | c :: rest =>
      if c = '\\' then
        match rest with
        | [] => ([], [])
        | kept :: rest => (kept :: (readName rest).1, (readName rest).2)
      else if isBlank c || isReserved c then ([], c :: rest)
      else (c :: (readName rest).1, (readName rest).2)

theorem readName_backslash (kept : Char) (rest : List Char) :
    readName ('\\' :: kept :: rest) = (kept :: (readName rest).1, (readName rest).2) := by
  rw [readName, if_pos rfl]

theorem readName_cons_of_ne {c : Char} (h : c ≠ '\\') (rest : List Char) :
    readName (c :: rest) =
      if isBlank c || isReserved c then ([], c :: rest)
      else (c :: (readName rest).1, (readName rest).2) := by
  rw [readName.eq_def]
  exact if_neg h

/-- Reads the body of `[[ ... ]]`, up to the first `]]` without a backslash before its first
bracket. Only brackets can be escaped. -/
def readVerbatim : List Char → Option (List Char × List Char)
  | [] | [_] => none
  | c :: d :: rest =>
      if c = ']' ∧ d = ']' then some ([], rest)
      else if c = '\\' ∧ (d = '[' ∨ d = ']') then
        (readVerbatim rest).map fun r => (d :: r.1, r.2)
      else (readVerbatim (d :: rest)).map fun r => (c :: r.1, r.2)

/-- A token, the text from its first character on, and the text behind it. -/
structure Lexeme where
  token : Token
  start : List Char
  rest : List Char
deriving DecidableEq

namespace Lexeme

/-- The first lexeme of a text. Inside a destructuring expression `[[` is two brackets,
elsewhere it opens a verbatim body. -/
def next (inside : Bool) (text : List Char) : Except ParseError Lexeme :=
  let start := text.dropWhile isBlank
  match start with
  | [] => .ok ⟨.eof, [], []⟩
  | c :: rest =>
      match Mark.ofChar? c with
      | none =>
          let (name, rest) := readName start
          .ok ⟨.name (String.ofList name), start, rest⟩
      | some .bracketL =>
          match inside, rest with
          | false, '[' :: body =>
              match readVerbatim body with
              | some (body, rest) => .ok ⟨.verbatim (String.ofList body), start, rest⟩
              | none => .error (.unexpectedEnd .closingVerbatim)
          | _, _ => .ok ⟨.mark .bracketL, start, rest⟩
      | some m => .ok ⟨.mark m, start, rest⟩

/-- How many characters are left of the text where this lexeme starts. -/
def left (lexeme : Lexeme) : Nat := lexeme.start.length

/-- The fault of finding this lexeme where the grammar allows something else. -/
def unexpected (lexeme : Lexeme) (expected : Expected) : ParseError :=
  match lexeme.token with
  | .eof => .unexpectedEnd expected
  | token => .unexpectedToken lexeme.left token expected

end Lexeme

/-- The lexemes of a text read one after the other, one under each of the flags, with the fault
that stops them if there is one. Nothing is read behind the end. -/
def lexemesUnder : List Bool → List Char → List Lexeme × Option ParseError
  | [], _ => ([], none)
  | inside :: flags, text =>
      match Lexeme.next inside text with
      | .error fault => ([], some fault)
      | .ok lexeme =>
          if lexeme.token = .eof then ([lexeme], none)
          else
            let (lexemes, fault) := lexemesUnder flags lexeme.rest
            (lexeme :: lexemes, fault)

/-- All lexemes of a text, the end included. Each takes a character, so there are no more
than one for each character and one for the end. -/
def lexemes (inside : Bool) (text : List Char) : List Lexeme × Option ParseError :=
  lexemesUnder (List.replicate (text.length + 1) inside) text

end DocPath
