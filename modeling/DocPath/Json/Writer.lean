import DocPath.Document.Basic

/-! Documents written in JSON, compact or indented. -/

namespace DocPath

namespace Json

/-! ## Texts -/

def hexDigit (n : Nat) : Char := Nat.digitChar n

/-- Quotes, backslashes and controls are escaped, everything else stands for itself. -/
def escape (c : Char) : List Char :=
  if c = '"' then ['\\', '"']
  else if c = '\\' then ['\\', '\\']
  else if c = '\x08' then ['\\', 'b']
  else if c = '\x0c' then ['\\', 'f']
  else if c = '\n' then ['\\', 'n']
  else if c = '\r' then ['\\', 'r']
  else if c = '\t' then ['\\', 't']
  else if c.toNat < 0x20 then
    ['\\', 'u', '0', '0', hexDigit (c.toNat / 16), hexDigit (c.toNat % 16)]
  else [c]

def textChars (s : String) : List Char :=
  '"' :: s.toList.flatMap escape ++ ['"']

/-! ## Values -/

/-- Where line breaks and spaces go between the parts of a value. -/
inductive Spacing where
  | compact
  | indented (width : Nat)

namespace Spacing

/-- What stands before a part at the given depth. -/
def newline (spacing : Spacing) (depth : Nat) : List Char :=
  match spacing with
  | compact => []
  | indented width => '\n' :: List.replicate (width * depth) ' '

/-- What stands between a key and its value. -/
def colon : Spacing → List Char
  | compact => [':']
  | indented _ => [':', ' ']

end Spacing

/-- Parts between brackets, each on a line of its own. Nothing stands between the brackets of
an empty value. -/
def bracketed (spacing : Spacing) (depth : Nat) (opening closing : Char)
    (parts : List (List Char)) : List Char :=
  if parts.isEmpty then [opening, closing]
  else
    opening :: List.intercalate [','] (parts.map (spacing.newline (depth + 1) ++ ·)) ++
      spacing.newline depth ++ [closing]

/-- The JSON text of a document that stands at the given depth. -/
def chars (spacing : Spacing) (depth : Nat) : Document → List Char
  | .null => ['n', 'u', 'l', 'l']
  | .bool true => ['t', 'r', 'u', 'e']
  | .bool false => ['f', 'a', 'l', 's', 'e']
  | .number n => n.text .json
  | .text s => textChars s
  | .array items =>
      bracketed spacing depth '[' ']' (items.map fun item => chars spacing (depth + 1) item)
  | .object entries =>
      bracketed spacing depth '{' '}' (entries.map fun e =>
        textChars e.1 ++ spacing.colon ++ chars spacing (depth + 1) e.2)
termination_by doc => sizeOf doc
decreasing_by
  · rename_i h
    have := List.sizeOf_lt_of_mem h
    simp only [Document.array.sizeOf_spec]
    omega
  · rename_i h
    have := List.sizeOf_lt_of_mem h
    have : sizeOf e = 1 + sizeOf e.1 + sizeOf e.2 := rfl
    simp only [Document.object.sizeOf_spec]
    omega

end Json

/-- A document in JSON, on one line without spaces. -/
def Document.toJson (doc : Document) : String :=
  String.ofList (Json.chars .compact 0 doc)

/-- A document in JSON, with each item on a line of its own, indented by `width` spaces for
each level. -/
def Document.toIndentedJson (width : Nat) (doc : Document) : String :=
  String.ofList (Json.chars (.indented width) 0 doc)

end DocPath
