import DocPath.Document.Basic

/-! The schema of plain scalars: which of them are null, truth values and numbers. -/

namespace DocPath.Yaml

def isNullWord (text : String) : Bool :=
  text == "" || text == "~" || text == "null" || text == "Null" || text == "NULL"

def boolWord? (text : String) : Option Bool :=
  if text == "true" || text == "True" || text == "TRUE" then some true
  else if text == "false" || text == "False" || text == "FALSE" then some false
  else none

/-! ## Integers -/

/-- A leading zero makes a run of digits a text, unless it is alone. -/
def isPaddedDigits (text : List Char) : Bool :=
  let digits := match text with
    | '-' :: rest | '+' :: rest => rest
    | _ => text
  match digits with
  | '0' :: c :: rest => (c :: rest).all Char.isDigit
  | _ => false

/-- A natural number behind the mark of its base. -/
def marked? : List Char → Option Nat
  | '0' :: 'x' :: digits => Numeral.naturalIn? 16 digits
  | '0' :: 'o' :: digits => Numeral.naturalIn? 8 digits
  | '0' :: 'b' :: digits => Numeral.naturalIn? 2 digits
  | _ => none

/-- The integer a plain scalar stands for, of whatever size. -/
def integer? (text : List Char) : Option Int :=
  match text with
  | '-' :: rest =>
      match marked? rest with
      | some n => some (-(n : Int))
      | none =>
          if isPaddedDigits text then none
          else (Numeral.naturalIn? 10 rest).map fun n => -(n : Int)
  | _ =>
      let digits := match text with
        | '+' :: rest => rest
        | _ => text
      match marked? digits with
      | some n => some n
      | none =>
          if isPaddedDigits text then none
          else (Numeral.naturalIn? 10 digits).map fun n => (n : Int)

/-- Integers of this many bits are told from binary numbers. -/
def wideLimit : Int := (UInt64.size * UInt64.size : Nat)

/-! ## Binary numbers -/

/-- A decimal with an optional fraction and exponent: its digits, and the scale of the last of
them. There has to be a digit before the exponent. -/
def decimal? (text : List Char) : Option (Nat × Int) := do
  let whole := text.takeWhile Char.isDigit
  let rest := text.dropWhile Char.isDigit
  let (fraction, rest) := match rest with
    | '.' :: more => (more.takeWhile Char.isDigit, more.dropWhile Char.isDigit)
    | _ => ([], rest)
  if whole.isEmpty && fraction.isEmpty then none
  else
    let exponent ← match rest with
      | [] => some 0
      | e :: power => if e == 'e' || e == 'E' then Numeral.integer? power else none
    return (Nat.ofDigitChars 10 (whole ++ fraction) 0, exponent - fraction.length)

/-- The finite number a plain scalar stands for. -/
def binary? (text : List Char) : Option Binary64 :=
  match text with
  | '-' :: rest => (decimal? rest).bind fun d => Binary64.ofDecimal true d.1 d.2
  | '+' :: rest => (decimal? rest).bind fun d => Binary64.ofDecimal false d.1 d.2
  | _ => (decimal? text).bind fun d => Binary64.ofDecimal false d.1 d.2

/-- Words for numbers that are not finite. -/
def isUnboundedWord (text : String) : Bool :=
  [".inf", ".Inf", ".INF", "+.inf", "+.Inf", "+.INF", "-.inf", "-.Inf", "-.INF", ".nan", ".NaN",
    ".NAN"].contains text

/-! ## All of them -/

/-- What a plain scalar is. Integers that take more than a machine word, but no more than two,
cannot be held. -/
inductive Plain where
  | null
  | bool (value : Bool)
  | whole (n : Int)
  | tooWide
  | binary (x : Binary64)
  | unbounded
  | text

def Plain.ofText (text : String) : Plain :=
  let chars := text.toList
  if isNullWord text then .null
  else
    match boolWord? text with
    | some b => .bool b
    | none =>
      let small : Option Plain := (integer? chars).bind fun n =>
        if -Numeral.signedLimit ≤ n && n < Numeral.wordLimit then some (.whole n)
        else if -(wideLimit / 2) ≤ n && n < wideLimit then some .tooWide
        else none
      match small with
      | some p => p
      | none =>
        if isPaddedDigits chars then .text
        else if isUnboundedWord text then .unbounded
        else
          match binary? chars with
          | some x => .binary x
          | none => .text

end DocPath.Yaml
