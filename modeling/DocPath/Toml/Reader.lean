import DocPath.Toml.Scalar

/-! Settings read from a text: lines that give values to names, under headers. -/

namespace DocPath.Toml

/-! ## Lines -/

/-- The text behind a comment, if it starts with one. No controls may stand in it. -/
def skipComment (text : List Char) : List Char :=
  match text with
  | '#' :: rest => rest.dropWhile isShown
  | _ => text

/-- The text behind the rest of a line that holds nothing but a comment. -/
def lineEnd? (text : List Char) : Option (List Char) :=
  match skipComment (skipGaps text) with
  | [] => some []
  | rest => newline? rest

/-- Skips blanks, comments and line ends between the items of an array. -/
def skipAll : Nat → List Char → List Char
  | 0, text => text
  | fuel + 1, text =>
      match newline? (skipComment (skipGaps text)) with
      | some rest => skipAll fuel rest
      | none => skipGaps text

/-! ## Values -/

mutual

/-- A value at the start of a text. -/
def item? : Nat → List Char → Option (Item × List Char)
  | 0, _ => none
  | fuel + 1, text =>
      match text with
      | '"' :: _ | '\'' :: _ => (quotedText? text).map fun r => (.text (String.ofList r.1), r.2)
      | '[' :: rest => (afterItems? fuel rest).map (.other, ·)
      | '{' :: rest =>
          match skipGaps rest with
          | '}' :: rest => some (.other, rest)
          | rest => (afterEntries? fuel [] rest).map (.other, ·)
      | _ => (bareItem? (bareWord text).1).map (·, (bareWord text).2)

/-- The text behind the items of an array. A comma may stand behind the last. -/
def afterItems? : Nat → List Char → Option (List Char)
  | 0, _ => none
  | fuel + 1, text =>
      match skipAll (fuel + 1) text with
      | ']' :: rest => some rest
      | text => do
          let (_, rest) ← item? fuel text
          match skipAll (fuel + 1) rest with
          | ']' :: rest => some rest
          | ',' :: rest => afterItems? fuel rest
          | _ => none

/-- The text behind the entries of an inline table, all of them on one line. -/
def afterEntries? : Nat → Entries → List Char → Option (List Char)
  | 0, _, _ => none
  | fuel + 1, entries, text => do
      let (path, key, rest) ← names? (fuel + 1) text
      match rest with
      | '=' :: rest => do
          let (item, rest) ← item? fuel (skipGaps rest)
          let entries ← entries.assign path key item
          match skipGaps rest with
          | '}' :: rest => some rest
          | ',' :: rest => afterEntries? fuel entries rest
          | _ => none
      | _ => none

end

/-! ## Tables -/

/-- The names of a header behind its opening bracket, and the text behind its closing one. -/
def header? (fuel : Nat) (closing : List Char) (text : List Char) :
    Option (List String × String × List Char) := do
  let (path, key, rest) ← names? fuel text
  if closing.isPrefixOf rest then some (path, key, rest.drop closing.length) else none

/-- Reads lines up to the end of the text, below the header `below`. -/
def lines? : Nat → List String → Entries → List Char → Option Entries
  | 0, _, _, _ => none
  | fuel + 1, below, root, text =>
      match skipGaps text with
      | [] => some root
      | '[' :: '[' :: rest => do
          let (path, key, rest) ← header? (fuel + 1) [']', ']'] rest
          lines? fuel (path ++ [key]) (← root.openNext path key) (← lineEnd? rest)
      | '[' :: rest => do
          let (path, key, rest) ← header? (fuel + 1) [']'] rest
          lines? fuel (path ++ [key]) (← root.openTable path key) (← lineEnd? rest)
      | text =>
          match lineEnd? text with
          | some rest => lines? fuel below root rest
          | none => do
              let (path, key, rest) ← names? (fuel + 1) text
              match rest with
              | '=' :: rest => do
                  let (item, rest) ← item? (fuel + 1) (skipGaps rest)
                  lines? fuel below (← root.assignBelow below path key item) (← lineEnd? rest)
              | _ => none

/-- The settings that a text gives, unless it has a fault. -/
def parse? (text : String) : Option Entries :=
  let chars := match text.toList with
    | '\ufeff' :: rest => rest
    | chars => chars
  lines? (2 * chars.length + 1) [] [] chars

end DocPath.Toml
