import DocPath.Toml.Table
import DocPath.Text.Numeral

/-! Scalars of settings: names, quoted texts, and the values that are written without quotes. -/

namespace DocPath.Toml

/-- Blanks within a line. -/
def isGap (c : Char) : Bool := c == ' ' || c == '\t'

/-- Characters that may stand in comments and texts as they are. -/
def isShown (c : Char) : Bool := c == '\t' || (0x20 ≤ c.toNat && c.toNat != 0x7F)

def skipGaps (text : List Char) : List Char := text.dropWhile isGap

/-- The text behind a line end, if it starts with one. -/
def newline? : List Char → Option (List Char)
  | '\n' :: rest => some rest
  | '\r' :: '\n' :: rest => some rest
  | _ => none

/-- The text without a line end that it may start with. -/
def dropNewline (text : List Char) : List Char := (newline? text).getD text

/-! ## Texts -/

/-- The character whose code is given in `size` digits, and the text behind them. -/
def codeChar? (size : Nat) (text : List Char) : Option (Char × List Char) :=
  if text.length < size then none
  else (Numeral.char? (text.take size)).map (·, text.drop size)

/-- The character of an escape, and the text behind it. -/
def escape? : List Char → Option (Char × List Char)
  | 'u' :: rest => codeChar? 4 rest
  | 'U' :: rest => codeChar? 8 rest
  | c :: rest =>
      ([('b', '\x08'), ('t', '\t'), ('n', '\n'), ('f', '\x0c'), ('r', '\r'), ('"', '"'),
        ('\\', '\\')].lookup c).map (·, rest)
  | [] => none

/-- The rest of a text on one line, behind its opening quote. Only double quotes know
escapes. -/
def lineText (quote : Char) : Nat → List Char → Option (List Char × List Char)
  | 0, _ => none
  | fuel + 1, text =>
      match text with
      | [] => none
      | c :: rest =>
          if c == quote then some ([], rest)
          else if c == '\\' && quote == '"' then do
            let (c, rest) ← escape? rest
            let (more, rest) ← lineText quote fuel rest
            return (c :: more, rest)
          else if isShown c then do
            let (more, rest) ← lineText quote fuel rest
            return (c :: more, rest)
          else none

/-- Skips the blanks and line ends behind an escaped line end. -/
def skipLines : Nat → List Char → List Char
  | 0, text => text
  | fuel + 1, text =>
      match newline? (skipGaps text) with
      | some rest => skipLines fuel rest
      | none => skipGaps text

/-- The rest of a text on many lines, behind its opening quotes. Three quotes close it; up to
two more before them belong to it. -/
def manyLines (quote : Char) : Nat → List Char → Option (List Char × List Char)
  | 0, _ => none
  | fuel + 1, text =>
      let quotes := (text.takeWhile (· == quote)).length
      let more (c : Char) (rest : List Char) : Option (List Char × List Char) :=
        (manyLines quote fuel rest).map fun r => (c :: r.1, r.2)
      match text with
      | [] => none
      | c :: rest =>
          if c == quote then
            if quotes < 3 then more c rest
            else if quotes ≤ 5 then some (List.replicate (quotes - 3) quote, text.drop quotes)
            else none
          else if c == '\\' && quote == '"' then
            match newline? (skipGaps rest) with
            | some rest => manyLines quote fuel (skipLines fuel rest)
            | none => (escape? rest).bind fun r => more r.1 r.2
          else
            match newline? text with
            | some rest => more '\n' rest
            | none => if isShown c then more c rest else none

/-- A quoted text. -/
def quotedText? (text : List Char) : Option (List Char × List Char) :=
  match text with
  | '"' :: '"' :: '"' :: rest => manyLines '"' (rest.length + 1) (dropNewline rest)
  | '\'' :: '\'' :: '\'' :: rest => manyLines '\'' (rest.length + 1) (dropNewline rest)
  | '"' :: rest => lineText '"' (rest.length + 1) rest
  | '\'' :: rest => lineText '\'' (rest.length + 1) rest
  | _ => none

/-! ## Names -/

def isNameChar (c : Char) : Bool := c.isAlphanum || c == '_' || c == '-'

/-- A name, bare or between quotes. -/
def name? (text : List Char) : Option (String × List Char) :=
  match text with
  | '"' :: rest => (lineText '"' (rest.length + 1) rest).map fun r => (String.ofList r.1, r.2)
  | '\'' :: rest => (lineText '\'' (rest.length + 1) rest).map fun r => (String.ofList r.1, r.2)
  | _ =>
      let name := text.takeWhile isNameChar
      if name.isEmpty then none else some (String.ofList name, text.dropWhile isNameChar)

/-- Names joined by dots: those before the last, and the last. -/
def names? : Nat → List Char → Option (List String × String × List Char)
  | 0, _ => none
  | fuel + 1, text => do
      let (name, rest) ← name? (skipGaps text)
      match skipGaps rest with
      | '.' :: rest => do
          let (path, last, rest) ← names? fuel rest
          return (name :: path, last, rest)
      | rest => return ([], name, rest)

/-! ## Values without quotes -/

/-- Digits in a base, with single underscores between them. -/
def grouped? (base : Nat) (text : List Char) : Option Nat := do
  let (n, digit) ← text.foldlM (fun (n, digit) c =>
    if c == '_' then (if digit then some (n, false) else none)
    else (Numeral.digit? base c).map fun d => (n * base + d, true)) (0, false)
  if digit then some n else none

/-- The digits of a decimal integer. Only zero starts with a zero. -/
def decimal? (text : List Char) : Option Nat :=
  match text with
  | '0' :: _ :: _ => none
  | _ => grouped? 10 text

def dropSign (text : List Char) : List Char :=
  match text with
  | '+' :: rest | '-' :: rest => rest
  | _ => text

def integer? (text : List Char) : Option Int :=
  match text with
  | '0' :: 'x' :: digits => (grouped? 16 digits).map fun n => (n : Int)
  | '0' :: 'o' :: digits => (grouped? 8 digits).map fun n => (n : Int)
  | '0' :: 'b' :: digits => (grouped? 2 digits).map fun n => (n : Int)
  | '-' :: digits => (decimal? digits).map fun n => -(n : Int)
  | _ => (decimal? (dropSign text)).map fun n => (n : Int)

/-- Whether a text is a number with a fraction or an exponent, or no finite one. -/
def isFraction (text : List Char) : Bool :=
  let body := dropSign text
  let isMark (c : Char) : Bool := c == 'e' || c == 'E'
  let power := body.dropWhile fun c => !isMark c
  let mantissa := body.takeWhile fun c => !isMark c
  let whole := mantissa.takeWhile (· != '.')
  let fraction := mantissa.dropWhile (· != '.')
  body == ['i', 'n', 'f'] || body == ['n', 'a', 'n'] ||
    ((decimal? whole).isSome && !(power.isEmpty && fraction.isEmpty) &&
      (fraction.isEmpty || (grouped? 10 (fraction.drop 1)).isSome) &&
      (power.isEmpty || (grouped? 10 (dropSign (power.drop 1))).isSome))

/-- Whether a text has digits in some places and the given characters in others. Digits are
shown as zeros. -/
def hasShape (shape : String) (text : List Char) : Bool :=
  text.map (fun c => if c.isDigit then '0' else c.toUpper) == shape.toList

/-- Whether a text is a time of day, with or without parts of a second. -/
def isTime (text : List Char) : Bool :=
  hasShape "00:00:00" (text.take 8) &&
    match text.drop 8 with
    | [] => true
    | '.' :: digits => (Numeral.natural? digits).isSome
    | _ => false

/-- Whether a text is a date, a time, or both. -/
def isDate (text : List Char) : Bool :=
  let zone (c : Char) : Bool := c == 'Z' || c == 'z' || c == '+' || c == '-'
  let clock := text.drop 11
  let offset := clock.dropWhile fun c => !zone c
  isTime text || hasShape "0000-00-00" text ||
    ((hasShape "0000-00-00T" (text.take 11) || hasShape "0000-00-00 " (text.take 11)) &&
      isTime (clock.takeWhile fun c => !zone c) &&
      (offset.isEmpty || hasShape "Z" offset || hasShape "+00:00" offset ||
        hasShape "-00:00" offset))

/-- Integers are held to signed machine words. -/
def isSignedWord (n : Int) : Bool := -Numeral.signedLimit ≤ n && n < Numeral.signedLimit

/-- The value of a word without quotes. -/
def bareItem? (word : List Char) : Option Item :=
  if word == ['t', 'r', 'u', 'e'] then some (.bool true)
  else if word == ['f', 'a', 'l', 's', 'e'] then some (.bool false)
  else
    match integer? word with
    | some n => if isSignedWord n then some (.integer n) else none
    | none => if isFraction word || isDate word then some .other else none

def isBareChar (c : Char) : Bool :=
  c.isAlphanum || c == '_' || c == '-' || c == '+' || c == '.' || c == ':'

/-- A word without quotes. A date and a time may have a space between them. -/
def bareWord (text : List Char) : List Char × List Char :=
  let word := text.takeWhile isBareChar
  let rest := text.dropWhile isBareChar
  match rest with
  | ' ' :: more =>
      if hasShape "0000-00-00" word && more.head?.any Char.isDigit then
        (word ++ ' ' :: more.takeWhile isBareChar, more.dropWhile isBareChar)
      else (word, rest)
  | _ => (word, rest)

end DocPath.Toml
