import DocPath.Document.Basic

/-! Documents read from JSON. -/

namespace DocPath

namespace Json

/-- The characters that may stand between tokens. -/
def isSpace (c : Char) : Bool := c == ' ' || c == '\n' || c == '\t' || c == '\r'

def skipSpace (text : List Char) : List Char := text.dropWhile isSpace

/-! ## Numbers

The digits of a number are gathered in a machine word. Once it is full, further digits count
only by their number before the point, and not at all behind it. -/

/-- The word with one more digit, if it still fits. -/
def pushDigit? (word digit : Nat) : Option Nat :=
  let next := word * 10 + digit
  if next < Numeral.wordLimit then some next else none

def digitOf (c : Char) : Nat := c.toNat - 48

/-- The nearest binary number to a power of ten in range. -/
def powerOfTen (n : Nat) : Binary64 :=
  (Binary64.ofNat? (Nat.pow 10 n)).getD (Binary64.zero false)

/-- Division by a power of ten, in steps of at most 308 places. -/
def scaleDown (x : Binary64) (places : Nat) : Option Binary64 :=
  if places ≤ 308 then x.div? (powerOfTen places)
  else if x.mantissa == 0 then some x
  else (x.div? (powerOfTen 308)).bind fun y => scaleDown y (places - 308)
termination_by places

/-- The number `word · 10 ^ exponent`, with one rounding for the word, one for the power of
ten and one for what becomes of the two. Numbers that are too large are refused. -/
def ofParts (negative : Bool) (word : Nat) (exponent : Int) : Option Number := do
  let x ← Binary64.ofNat? word
  let y ←
    if exponent < 0 then scaleDown x exponent.natAbs
    else if exponent ≤ 308 then x.mul? (powerOfTen exponent.natAbs)
    else if x.mantissa == 0 then some x
    else none
  return .binary { y with negative := negative }

/-- Exponents are held to this size. -/
def exponentLimit : Nat := UInt32.size / 2 - 1

/-- The value of the digits of an exponent, or none if it is too large. -/
def exponentValue? (digits : List Char) : Option Nat :=
  digits.foldl (fun value c => value.bind fun n =>
    let next := n * 10 + digitOf c
    if next ≤ exponentLimit then some next else none) (some 0)

/-- The exponent behind an `e`. One that is too large gives zero if it is negative. -/
def exponent (negative : Bool) (word : Nat) (scale : Int) (text : List Char) :
    Option (Number × List Char) :=
  let (down, text) := match text with
    | '+' :: rest => (false, rest)
    | '-' :: rest => (true, rest)
    | _ => (false, text)
  let digits := text.takeWhile Char.isDigit
  let rest := text.dropWhile Char.isDigit
  if digits.isEmpty then none
  else
    match exponentValue? digits with
    | some n =>
        let total := if down then scale - n else scale + n
        let limit : Int := exponentLimit
        (ofParts negative word (max (-limit - 1) (min limit total))).map (·, rest)
    | none =>
        if word != 0 && !down then none else some (.binary (Binary64.zero negative), rest)

/-- What follows the digits of a number: an exponent, or nothing. -/
def afterDigits (negative : Bool) (word : Nat) (scale : Int) (text : List Char) :
    Option (Number × List Char) :=
  match text with
  | 'e' :: rest | 'E' :: rest => exponent negative word scale rest
  | _ => (ofParts negative word scale).map (·, text)

/-- The digits behind the point. -/
def fraction (negative : Bool) (word : Nat) (scale : Int) (taken : Bool) :
    List Char → Option (Number × List Char)
  | c :: rest =>
      if c.isDigit then
        match pushDigit? word (digitOf c) with
        | some word => fraction negative word (scale - 1) true rest
        | none => afterDigits negative word scale (rest.dropWhile Char.isDigit)
      else if taken then afterDigits negative word scale (c :: rest)
      else none
  | [] => if taken then afterDigits negative word scale [] else none

/-- The digits of an integer that does not fit a word. -/
def longInteger (negative : Bool) (word : Nat) (scale : Int) :
    List Char → Option (Number × List Char)
  | c :: rest =>
      if c.isDigit then longInteger negative word (scale + 1) rest
      else if c == '.' then fraction negative word scale false rest
      else afterDigits negative word scale (c :: rest)
  | [] => afterDigits negative word scale []

/-- A number without point or exponent. Zero with a sign and negative numbers beyond the
signed words are binary. -/
def integer (negative : Bool) (word : Nat) : Number :=
  if !negative then .whole word
  else if word == 0 || Numeral.signedLimit < word then
    match Binary64.ofNat? word with
    | some x => .binary x.neg
    | none => .whole (-word)
  else .whole (-word)

/-- The digits before the point. -/
def integerDigits (negative : Bool) (word : Nat) : List Char → Option (Number × List Char)
  | c :: rest =>
      if c.isDigit then
        match pushDigit? word (digitOf c) with
        | some word => integerDigits negative word rest
        | none => longInteger negative word 0 (c :: rest)
      else if c == '.' then fraction negative word 0 false rest
      else if c == 'e' || c == 'E' then exponent negative word 0 rest
      else some (integer negative word, c :: rest)
  | [] => some (integer negative word, [])

/-- A number behind its sign. A leading zero is the only digit before the point. -/
def unsigned (negative : Bool) (text : List Char) : Option (Number × List Char) :=
  match text with
  | '0' :: c :: rest => if c.isDigit then none else integerDigits negative 0 (c :: rest)
  | c :: rest => if c.isDigit then integerDigits negative 0 (c :: rest) else none
  | [] => none

def number (text : List Char) : Option (Number × List Char) :=
  match text with
  | '-' :: rest => unsigned true rest
  | _ => unsigned false text

/-! ## Texts -/

/-- The character of a one-letter escape. -/
def unescape? (c : Char) : Option Char :=
  if c = '"' then some '"'
  else if c = '\\' then some '\\'
  else if c = '/' then some '/'
  else if c = 'b' then some '\x08'
  else if c = 'f' then some '\x0c'
  else if c = 'n' then some '\n'
  else if c = 'r' then some '\r'
  else if c = 't' then some '\t'
  else none

def isHighSurrogate (n : Nat) : Bool := 0xD800 ≤ n && n < 0xDC00

def isLowSurrogate (n : Nat) : Bool := 0xDC00 ≤ n && n < 0xE000

/-- The rest of a text behind its opening quote. Surrogates are read in pairs only, and
controls have to be escaped. -/
def textBody : List Char → Option (List Char × List Char)
  | [] => none
  | '"' :: rest => some ([], rest)
  | '\\' :: 'u' :: a :: b :: c :: d :: rest => do
      let n ← Numeral.naturalIn? 16 [a, b, c, d]
      if isLowSurrogate n then none
      else if isHighSurrogate n then
        match rest with
        | '\\' :: 'u' :: a :: b :: c :: d :: rest => do
            let m ← Numeral.naturalIn? 16 [a, b, c, d]
            if isLowSurrogate m then
              let r ← textBody rest
              return (Char.ofNat (0x10000 + (n - 0xD800) * 0x400 + (m - 0xDC00)) :: r.1, r.2)
            else none
        | _ => none
      else do
        let r ← textBody rest
        return (Char.ofNat n :: r.1, r.2)
  | '\\' :: e :: rest => do
      let c ← unescape? e
      let r ← textBody rest
      return (c :: r.1, r.2)
  | c :: rest =>
      if c.toNat < 0x20 || c = '\\' then none
      else do
        let r ← textBody rest
        return (c :: r.1, r.2)

/-! ## Values -/

/-- Values may be nested this deep; `depth` counts down from it. -/
def depthLimit : Nat := 127

/-- The text behind a word, if it starts with it. -/
def word? (word : String) (text : List Char) : Option (List Char) :=
  if word.toList.isPrefixOf text then some (text.drop word.length) else none

mutual

/-- A value at the start of a text. A unit of fuel is used for each value, item and entry,
and each of these takes a character. -/
def value : Nat → Nat → List Char → Option (Document × List Char)
  | 0, _, _ => none
  | fuel + 1, depth, text =>
      match skipSpace text with
      | [] => none
      | 'n' :: rest => (word? "ull" rest).map (Document.null, ·)
      | 't' :: rest => (word? "rue" rest).map (Document.bool true, ·)
      | 'f' :: rest => (word? "alse" rest).map (Document.bool false, ·)
      | '"' :: rest => (textBody rest).map fun r => (.text (String.ofList r.1), r.2)
      | '[' :: rest =>
          match depth with
          | 0 => none
          | depth + 1 =>
              match skipSpace rest with
              | ']' :: rest => some (.array [], rest)
              | rest => (items fuel depth rest).map fun r => (.array r.1, r.2)
      | '{' :: rest =>
          match depth with
          | 0 => none
          | depth + 1 =>
              match skipSpace rest with
              | '}' :: rest => some (.object [], rest)
              | rest => (entries fuel depth rest).map fun r => (Document.ofEntries r.1, r.2)
      | rest => (number rest).map fun r => (.number r.1, r.2)

/-- One item or more, up to the closing bracket. -/
def items : Nat → Nat → List Char → Option (List Document × List Char)
  | 0, _, _ => none
  | fuel + 1, depth, text => do
      let (item, rest) ← value fuel depth text
      match skipSpace rest with
      | ',' :: rest => do
          let (more, rest) ← items fuel depth rest
          return (item :: more, rest)
      | ']' :: rest => return ([item], rest)
      | _ => none

/-- One entry or more, up to the closing brace. -/
def entries : Nat → Nat → List Char → Option (List (String × Document) × List Char)
  | 0, _, _ => none
  | fuel + 1, depth, text =>
      match skipSpace text with
      | '"' :: rest => do
          let (key, rest) ← textBody rest
          match skipSpace rest with
          | ':' :: rest => do
              let (item, rest) ← value fuel depth rest
              match skipSpace rest with
              | ',' :: rest => do
                  let (more, rest) ← entries fuel depth rest
                  return ((String.ofList key, item) :: more, rest)
              | '}' :: rest => return ([(String.ofList key, item)], rest)
              | _ => none
          | _ => none
      | _ => none

end

end Json

/-- The document a JSON text stands for. -/
def Document.ofJson? (text : String) : Option Document :=
  let chars := text.toList
  match Json.value (2 * chars.length + 1) Json.depthLimit chars with
  | some (doc, rest) => if (Json.skipSpace rest).isEmpty then some doc else none
  | none => none

end DocPath
