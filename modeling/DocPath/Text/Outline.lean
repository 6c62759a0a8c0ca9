/-! Outlines: values shown by the names of their parts, on one line or on many, and texts shown
between quotes. -/

namespace DocPath

/-! ## Quoted texts -/

namespace Quoted

/-- Ranges of characters that do not show by themselves: controls, formats, separators other
than the space, private use, and marks that attach to the character before them. -/
def hiddenRanges : List (Nat × Nat) :=
  [(0x00, 0x1F), (0x7F, 0xA0), (0xAD, 0xAD), (0x300, 0x36F), (0x483, 0x489), (0x591, 0x5BD),
   (0x5BF, 0x5BF), (0x5C1, 0x5C2), (0x5C4, 0x5C5), (0x5C7, 0x5C7), (0x600, 0x605),
   (0x610, 0x61A), (0x61C, 0x61C), (0x64B, 0x65F), (0x670, 0x670), (0x6D6, 0x6DD),
   (0x6DF, 0x6E4), (0x6E7, 0x6E8), (0x6EA, 0x6ED), (0x70F, 0x70F), (0x711, 0x711),
   (0x730, 0x74A), (0x7A6, 0x7B0), (0x7EB, 0x7F3), (0x816, 0x819), (0x81B, 0x823),
   (0x825, 0x827), (0x829, 0x82D), (0x859, 0x85B), (0x8D3, 0x902), (0x93A, 0x93A),
   (0x93C, 0x93C), (0x941, 0x948), (0x94D, 0x94D), (0x951, 0x957), (0x962, 0x963),
   (0xE31, 0xE31), (0xE34, 0xE3A), (0xE47, 0xE4E), (0x135D, 0x135F), (0x1680, 0x1680),
   (0x180B, 0x180E), (0x1AB0, 0x1ACE), (0x1DC0, 0x1DFF), (0x2000, 0x200F), (0x2028, 0x202F),
   (0x205F, 0x206F), (0x20D0, 0x20F0), (0x2CEF, 0x2CF1), (0x2DE0, 0x2DFF), (0x3000, 0x3000),
   (0x302A, 0x302F), (0x3099, 0x309A), (0xA66F, 0xA672), (0xA674, 0xA67D), (0xA69E, 0xA69F),
   (0xA6F0, 0xA6F1), (0xE000, 0xF8FF), (0xFB1E, 0xFB1E), (0xFE00, 0xFE0F), (0xFE20, 0xFE2F),
   (0xFEFF, 0xFEFF), (0xFF9E, 0xFF9F), (0xFFF0, 0xFFFB), (0xFFFE, 0xFFFF),
   (0x1D165, 0x1D169), (0x1D16D, 0x1D182), (0xE0000, 0x10FFFF)]

def isHidden (c : Char) : Bool :=
  hiddenRanges.any fun r => r.1 ≤ c.toNat && c.toNat ≤ r.2

/-- Backslashes, quotes and the common controls have short escapes, hidden characters show
their code. -/
def escape (c : Char) : List Char :=
  if c = '"' then ['\\', '"']
  else if c = '\\' then ['\\', '\\']
  else if c = '\n' then ['\\', 'n']
  else if c = '\r' then ['\\', 'r']
  else if c = '\t' then ['\\', 't']
  else if c.toNat = 0 then ['\\', '0']
  else if isHidden c then '\\' :: 'u' :: '{' :: Nat.toDigits 16 c.toNat ++ ['}']
  else [c]

end Quoted

/-- A text between double quotes. -/
def quoted (text : String) : String :=
  String.ofList ('"' :: text.toList.flatMap Quoted.escape ++ ['"'])

/-! ## Outlines -/

/-- A value to show: a bare word, a record of named fields, a constructor with arguments, or
a list. -/
inductive Outline where
  | word (text : String)
  | record (name : String) (fields : List (String × Outline))
  | tuple (name : String) (items : List Outline)
  | list (items : List Outline)

namespace Outline

def nat (n : Nat) : Outline := .word (toString n)

def int (n : Int) : Outline := .word (toString n)

def bool (b : Bool) : Outline := .word (toString b)

def text (s : String) : Outline := .word (quoted s)

def option : Option Outline → Outline
  | some value => .tuple "Some" [value]
  | none => .word "None"

/-! ### On one line -/

mutual

def inline : Outline → String
  | word text => text
  | record name fields => name ++ r" { " ++ ", ".intercalate (inlineFields fields) ++ r" }"
  | tuple name items => name ++ "(" ++ ", ".intercalate (inlineItems items) ++ ")"
  | list items => "[" ++ ", ".intercalate (inlineItems items) ++ "]"

def inlineFields : List (String × Outline) → List String
  | [] => []
  | (name, value) :: rest => (name ++ ": " ++ value.inline) :: inlineFields rest

def inlineItems : List Outline → List String
  | [] => []
  | item :: rest => item.inline :: inlineItems rest

end

/-! ### On many lines

Parts stand on lines of their own, four spaces further in, each with a comma behind it. -/

/-- The start of a line at a depth. -/
def margin (depth : Nat) : String := "".pushn ' ' (4 * depth)

mutual

/-- The outline as it stands on a line that starts at `depth`. -/
def block (depth : Nat) : Outline → String
  | word text => text
  | record name fields =>
      name ++ r" {" ++ "\n" ++ blockFields (depth + 1) fields ++ margin depth ++ r"}"
  | tuple name items => name ++ "(\n" ++ blockItems (depth + 1) items ++ margin depth ++ ")"
  | list [] => "[]"
  | list (item :: rest) =>
      "[\n" ++ margin (depth + 1) ++ item.block (depth + 1) ++ ",\n" ++
        blockItems (depth + 1) rest ++ margin depth ++ "]"

def blockFields (depth : Nat) : List (String × Outline) → String
  | [] => ""
  | (name, value) :: rest =>
      margin depth ++ name ++ ": " ++ value.block depth ++ ",\n" ++ blockFields depth rest

def blockItems (depth : Nat) : List Outline → String
  | [] => ""
  | item :: rest => margin depth ++ item.block depth ++ ",\n" ++ blockItems depth rest

end

end Outline

end DocPath
