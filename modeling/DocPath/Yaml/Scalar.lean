import DocPath.Text.Numeral
import DocPath.Yaml.Cursor

/-! Scalars: plain, quoted, and set off as blocks. Readers take fuel, of which one more than
the number of characters left is always enough. -/

namespace DocPath.Yaml

/-! ## Gaps between words -/

/-- What stands between two words of a scalar. Blanks count only while no line has ended. -/
structure Gap where
  blanks : List Char
  breaks : List Char
  crossed : Bool

namespace Gap

def none : Gap := ⟨[], [], false⟩

/-- The gap behind an escaped line end. -/
def escaped : Gap := ⟨[], [], true⟩

/-- One line end is read as a space; of more, the first is left out. -/
def fold : List Char → List Char
  | ['\n'] => [' ']
  | '\n' :: more => more
  | breaks => breaks

def text (g : Gap) : List Char := if g.crossed then fold g.breaks else g.blanks

/-- Reads a gap. No tab may stand before column `least` of a new line. -/
def read (least : Nat) : Nat → Gap → Cursor → Option (Gap × Cursor)
  | 0, _, _ => .none
  | fuel + 1, gap, cursor =>
      match cursor.rest with
      | [] => some (gap, cursor)
      | c :: _ =>
          if isGap c then
            if gap.crossed && c == '\t' && cursor.column < least then .none
            else if gap.crossed then read least fuel gap (cursor.skip 1)
            else read least fuel { gap with blanks := gap.blanks ++ [c] } (cursor.skip 1)
          else if isBreak c then read least fuel ⟨[], gap.breaks ++ [c], true⟩ cursor.nextLine
          else some (gap, cursor)

end Gap

/-! ## Plain scalars -/

/-- Characters with a meaning of their own between flow brackets. -/
def isFlowMark (c : Char) : Bool := c == ',' || c == '[' || c == ']' || c == '{' || c == '}'

/-- A word of a plain scalar, up to a gap or to what ends the scalar. -/
def plainWord (flow : Bool) : List Char → Option (List Char)
  | [] => some []
  | c :: rest =>
      if isGap c || isBreak c then some []
      else if flow && c == ':' && rest.head?.any (fun x => isFlowMark x || x == '?') then none
      else if (c == ':' && atGap rest) || (flow && isFlowMark c) then some []
      else (plainWord flow rest).map (c :: ·)

/-- The words of a plain scalar from here on, behind the text read so far and a gap. The last
result tells whether a line ends between the scalar and the cursor. -/
def plainWords (flow : Bool) (least : Nat) :
    Nat → List Char → Gap → Cursor → Option (List Char × Cursor × Bool)
  | 0, _, _, _ => none
  | fuel + 1, text, gap, cursor => do
      if cursor.atMarker || cursor.rest.head? == some '#' then return (text, cursor, gap.crossed)
      let word ← plainWord flow cursor.rest
      if word.isEmpty then return (text, cursor, gap.crossed)
      let text := text ++ gap.text ++ word
      let (gap, cursor) ← Gap.read least (fuel + 1) .none (cursor.skip word.length)
      if gap.blanks.isEmpty && !gap.crossed then return (text, cursor, false)
      if !flow && cursor.column < least then return (text, cursor, gap.crossed)
      plainWords flow least fuel text gap cursor

def readPlain (fuel : Nat) (flow : Bool) (least : Nat) (cursor : Cursor) :
    Option (List Char × Cursor × Bool) :=
  plainWords flow least fuel [] .none cursor

/-! ## Quoted scalars -/

/-- A word between single quotes, in which two quotes stand for one, and its length as
written. -/
def singleWord : List Char → List Char × Nat
  | [] => ([], 0)
  | '\'' :: '\'' :: rest => ('\'' :: (singleWord rest).1, (singleWord rest).2 + 2)
  | c :: rest =>
      if c == '\'' || isGap c || isBreak c then ([], 0)
      else (c :: (singleWord rest).1, (singleWord rest).2 + 1)

/-- The character of a one-letter escape. -/
def unescape? (c : Char) : Option Char :=
  [('0', '\x00'), ('a', '\x07'), ('b', '\x08'), ('t', '\t'), ('\t', '\t'), ('n', '\n'),
    ('v', '\x0b'), ('f', '\x0c'), ('r', '\r'), ('e', '\x1b'), (' ', ' '), ('"', '"'), ('/', '/'),
    ('\\', '\\'), ('N', '\u0085'), ('_', '\u00a0'), ('L', '\u2028'), ('P', '\u2029')].lookup c

/-- The number of digits behind an escape that gives a character by its code. -/
def codeLength? (c : Char) : Option Nat :=
  [('x', 2), ('u', 4), ('U', 8)].lookup c

/-- A word between double quotes, and its length as written. The last result tells whether an
escaped line end follows it. -/
def doubleWord : Nat → List Char → Option (List Char × Nat × Bool)
  | 0, _ => none
  | fuel + 1, text =>
      let more (c : Char) (size : Nat) : Option (List Char × Nat × Bool) :=
        (doubleWord fuel (text.drop size)).map fun r => (c :: r.1, r.2.1 + size, r.2.2)
      match text with
      | [] => some ([], 0, false)
      | ['\\'] => none
      | '\\' :: e :: rest =>
          if isBreak e then some ([], 0, true)
          else
            match unescape? e, codeLength? e with
            | some c, _ => more c 2
            | none, some size =>
                if rest.length < size then none
                else (Numeral.char? (rest.take size)).bind fun c => more c (size + 2)
            | none, none => none
      | c :: _ => if c == '"' || isGap c || isBreak c then some ([], 0, false) else more c 1

/-- The words of a quoted scalar from here on, up to its closing quote. -/
def quotedWords (single : Bool) : Nat → List Char → Cursor → Option (List Char × Cursor)
  | 0, _, _ => none
  | fuel + 1, text, cursor => do
      if cursor.atMarker || cursor.rest.isEmpty then none
      else
        let (word, size, escaped) ←
          if single then some ((singleWord cursor.rest).1, (singleWord cursor.rest).2, false)
          else doubleWord (fuel + 1) cursor.rest
        let text := text ++ word
        let cursor := cursor.skip size
        let cursor := if escaped then (cursor.skip 1).nextLine else cursor
        if cursor.rest.head? == some (if single then '\'' else '"') then
          return (text, cursor.skip 1)
        else
          let (gap, cursor) ← Gap.read 0 (fuel + 1) (if escaped then .escaped else .none) cursor
          let between := if escaped then gap.breaks else gap.text
          quotedWords single fuel (text ++ between) cursor

/-- A quoted scalar behind its opening quote. -/
def readQuoted (fuel : Nat) (single : Bool) (cursor : Cursor) : Option (List Char × Cursor) :=
  quotedWords single fuel [] cursor

/-! ## Block scalars -/

/-- What happens to the line ends behind a block scalar: they are dropped but for the first,
all dropped, or all kept. -/
inductive Chomping where
  | clip
  | strip
  | keep

namespace Chomping

def ofMark? (c : Char) : Option Chomping :=
  if c == '+' then some .keep else if c == '-' then some .strip else none

end Chomping

/-- The indentation of a block scalar by its digit, which is not zero. -/
def indentMark? (c : Char) : Option Nat :=
  if c.isDigit && c != '0' then some (c.toNat - 48) else none

/-- The indicators of a block scalar, a chomping and an indentation in either order, and how
many of them there are. -/
def blockHeader (text : List Char) : Chomping × Option Nat × Nat :=
  match text with
  | [] => (.clip, none, 0)
  | a :: rest =>
      let second : Option Char := rest.head?
      match Chomping.ofMark? a, indentMark? a with
      | some chomping, _ =>
          match second.bind indentMark? with
          | some n => (chomping, some n, 2)
          | none => (chomping, none, 1)
      | none, some n =>
          match second.bind Chomping.ofMark? with
          | some chomping => (chomping, some n, 2)
          | none => (.clip, some n, 1)
      | none, none => (.clip, none, 0)

/-- Skips indentation and empty lines. Hands back their line ends and the widest column seen.
No tab may stand within the indentation. -/
def blockBreaks (indent : Nat) : Nat → List Char → Nat → Cursor →
    Option (List Char × Nat × Cursor)
  | 0, _, _, _ => none
  | fuel + 1, breaks, widest, cursor =>
      let within := indent == 0 || cursor.column < indent
      match cursor.rest with
      | [] => some (breaks, max widest cursor.column, cursor)
      | c :: _ =>
          if c == ' ' && within then blockBreaks indent fuel breaks widest (cursor.skip 1)
          else if c == '\t' && within then none
          else if isBreak c then
            blockBreaks indent fuel (breaks ++ [c]) (max widest cursor.column) cursor.nextLine
          else some (breaks, max widest cursor.column, cursor)

/-- A block scalar while it is read: its text, the line end behind the last line, the line ends
of the empty lines behind that, and whether the last line starts with a blank. -/
structure Block where
  text : List Char
  lastBreak : List Char
  emptyBreaks : List Char
  leadingBlank : Bool

/-- The lines of a block scalar that start at its indentation. -/
def blockLines (literal : Bool) (indent : Nat) : Nat → Block → Cursor → Option (Block × Cursor)
  | 0, _, _ => none
  | fuel + 1, block, cursor =>
      if cursor.column != indent || cursor.rest.isEmpty then some (block, cursor)
      else do
        let blank := cursor.rest.head?.any isGap
        let folds := !literal && block.lastBreak == ['\n'] && !block.leadingBlank && !blank
        let between :=
          if folds then (if block.emptyBreaks.isEmpty then [' '] else block.emptyBreaks)
          else block.lastBreak ++ block.emptyBreaks
        let content := cursor.rest.takeWhile fun c => !isBreak c
        let cursor := cursor.skip content.length
        let lastBreak := cursor.rest.take 1
        let cursor := if lastBreak.isEmpty then cursor else cursor.nextLine
        let (breaks, _, cursor) ← blockBreaks indent (fuel + 1) [] 0 cursor
        blockLines literal indent fuel
          ⟨block.text ++ between ++ content, lastBreak, breaks, blank⟩ cursor

/-- A block scalar behind its `|` or `>`, in a collection indented by `parent`. -/
def readBlock (fuel : Nat) (literal : Bool) (parent : Int) (cursor : Cursor) :
    Option (List Char × Cursor) := do
  let (chomping, increment, size) := blockHeader cursor.rest
  let cursor := (cursor.skip size).skipWhile isGap
  let cursor := if cursor.rest.head? == some '#' then cursor.toBreak else cursor
  match cursor.rest with
  | c :: _ => if isBreak c then some () else none
  | [] => some ()
  let cursor := if cursor.rest.isEmpty then cursor else cursor.nextLine
  let given : Nat := match increment with
    | some n => parent.toNat + n
    | none => 0
  let (breaks, widest, cursor) ← blockBreaks given fuel [] 0 cursor
  let indent := if given == 0 then max widest (max (parent + 1) 1).toNat else given
  let (block, cursor) ← blockLines literal indent fuel ⟨[], [], breaks, false⟩ cursor
  let ending := match chomping with
    | .strip => []
    | .clip => block.lastBreak
    | .keep => block.lastBreak ++ block.emptyBreaks
  return (block.text ++ ending, cursor)

end DocPath.Yaml
