import DocPath.Yaml.Scalar

/-! Tokens of block-style texts. Indentation becomes tokens of its own, which open and close
the collections that it stands for. -/

namespace DocPath.Yaml

/-- Scalars remember whether they are plain, since only those are more than text. -/
inductive Token where
  | directive
  | documentStart
  | documentEnd
  | blockSequence
  | blockMapping
  | blockEnd
  | flowSequence
  | flowSequenceEnd
  | flowMapping
  | flowMappingEnd
  | entry
  | flowEntry
  | key
  | value
  | anchor (name : String)
  | reference (name : String)
  | tag (name : String)
  | scalar (plain : Bool) (text : String)
deriving DecidableEq

/-- A place where a key without a mark may have started, and the number of tokens before it. A
key at the indentation of its mapping has to turn out to be one. -/
structure PendingKey where
  required : Bool
  tokens : Nat
  index : Nat
  line : Nat
  column : Nat

/-- A text while its tokens are read. There is one pending key at most for each open flow
collection and one outside them; the innermost comes first. -/
structure Scan where
  cursor : Cursor
  tokens : Array Token
  flow : Nat
  indent : Int
  indents : List Int
  keyAllowed : Bool
  pending : List (Option PendingKey)

namespace Scan

def start (text : List Char) : Scan :=
  ⟨.start text, #[], 0, -1, [], true, [none]⟩

def emit (s : Scan) (token : Token) : Scan := { s with tokens := s.tokens.push token }

/-! ## Indentation -/

/-- Closes the block collections that are indented further than `column`. -/
def closeTo (column : Int) (s : Scan) : List Int → Scan
  | [] => { s with indents := [] }
  | outer :: rest =>
      if column < s.indent then closeTo column { s.emit .blockEnd with indent := outer } rest
      else { s with indents := outer :: rest }

def unroll (s : Scan) (column : Int) : Scan :=
  if s.flow == 0 then closeTo column s s.indents else s

/-- Opens a block collection at `column`, if none is open there. Its token goes to the given
place. -/
def roll (s : Scan) (column : Nat) (place : Nat) (token : Token) : Scan :=
  if s.flow == 0 && s.indent < column then
    { s with
      indents := s.indent :: s.indents
      indent := column
      tokens := s.tokens.insertIdxIfInBounds place token }
  else s

/-! ## Pending keys -/

/-- Gives up the pending key, unless it has to be one. -/
def dropKey (s : Scan) : Option Scan :=
  match s.pending with
  | some key :: rest => if key.required then none else some { s with pending := none :: rest }
  | _ => some s

/-- Notes that a key may start here. -/
def saveKey (s : Scan) : Option Scan :=
  if s.keyAllowed then do
    let s ← s.dropKey
    let key : PendingKey :=
      { required := s.flow == 0 && s.indent == s.cursor.column
        tokens := s.tokens.size
        index := s.cursor.index
        line := s.cursor.line
        column := s.cursor.column }
    return { s with pending := some key :: s.pending.drop 1 }
  else some s

/-- The pending key, if a value may still follow it here: on the same line, and not too far
away. -/
def liveKey (s : Scan) : Option (Option PendingKey) :=
  match s.pending with
  | some key :: _ =>
      if key.line < s.cursor.line || key.index + 1024 < s.cursor.index then
        if key.required then none else some none
      else some (some key)
  | _ => some none

/-! ## Tokens -/

/-- Skips what stands between tokens. A new line outside flow collections allows a key. -/
def skipGaps : Nat → Scan → Scan
  | 0, s => s
  | fuel + 1, s =>
      let tabs := s.flow != 0 || !s.keyAllowed
      let cursor := s.cursor.skipWhile fun c => c == ' ' || (tabs && c == '\t')
      let cursor := if cursor.rest.head? == some '#' then cursor.toBreak else cursor
      if cursor.rest.head?.any isBreak then
        skipGaps fuel { s with
          cursor := cursor.nextLine
          keyAllowed := s.keyAllowed || s.flow == 0 }
      else { s with cursor := cursor }

/-- A mark of one character, or of three. -/
def mark (s : Scan) (size : Nat) (token : Token) : Scan :=
  { s.emit token with cursor := s.cursor.skip size }

def openFlow (s : Scan) (token : Token) : Option Scan := do
  let s ← s.saveKey
  return { s.mark 1 token with
    flow := s.flow + 1
    pending := none :: s.pending
    keyAllowed := true }

def closeFlow (s : Scan) (token : Token) : Option Scan := do
  let s ← s.dropKey
  return { s.mark 1 token with
    flow := s.flow - 1
    pending := if s.flow == 0 then s.pending else s.pending.drop 1
    keyAllowed := false }

/-- The mark of a document's start or end, or a directive. All collections are closed. -/
def outermost (s : Scan) : Option Scan := do
  let s ← (s.unroll (-1)).dropKey
  return { s with keyAllowed := false }

def blockEntry (s : Scan) : Option Scan := do
  if s.flow == 0 && !s.keyAllowed then none
  else
    let s ← (s.roll s.cursor.column s.tokens.size .blockSequence).dropKey
    return { s.mark 1 .entry with keyAllowed := true }

def keyMark (s : Scan) : Option Scan := do
  if s.flow == 0 && !s.keyAllowed then none
  else
    let s ← (s.roll s.cursor.column s.tokens.size .blockMapping).dropKey
    return { s.mark 1 .key with keyAllowed := s.flow == 0 }

/-- The mark of a value. A pending key gets its own mark here, and opens a mapping. -/
def valueMark (s : Scan) : Option Scan := do
  match ← s.liveKey with
  | some key =>
      let s := { s with tokens := s.tokens.insertIdxIfInBounds key.tokens .key }
      let s := s.roll key.column key.tokens .blockMapping
      let s := { s with pending := none :: s.pending.drop 1 }
      return { s.mark 1 .value with keyAllowed := false }
  | none =>
      if s.flow == 0 && !s.keyAllowed then none
      else
        let s := s.roll s.cursor.column s.tokens.size .blockMapping
        return { s.mark 1 .value with keyAllowed := s.flow == 0 }

def isNameChar (c : Char) : Bool := c.isAlphanum || c == '_' || c == '-'

/-- The name behind `&` or `*`. -/
def anchorName (s : Scan) (token : String → Token) : Option Scan := do
  let s ← s.saveKey
  let text := s.cursor.rest.drop 1
  let name := text.takeWhile isNameChar
  let rest := text.dropWhile isNameChar
  let ended := atGap rest || rest.head?.any fun c => r"?:,]}%@`".toList.contains c
  if name.isEmpty || !ended then none
  else
    return { s.emit (token (String.ofList name)) with
      cursor := s.cursor.skip (name.length + 1)
      keyAllowed := false }

/-- A tag: `!<name>` as it is, `!!name` from the core schema, all others local. -/
def tagName (s : Scan) : Option Scan := do
  let s ← s.saveKey
  let inFlow := s.flow != 0
  let text := s.cursor.rest
  let (name, size) ← match text with
    | '!' :: '<' :: uri =>
        let name := uri.takeWhile fun c => !(c == '>' || isGap c || isBreak c)
        if name.isEmpty || uri[name.length]? != some '>' then none
        else some (String.ofList name, name.length + 3)
    | _ =>
        let name := text.takeWhile fun c => !(isGap c || isBreak c || (inFlow && isFlowMark c))
        match name with
        | '!' :: '!' :: core =>
            if core.isEmpty then none
            else some ("tag:yaml.org,2002:" ++ String.ofList core, name.length)
        | '!' :: own => if own.contains '!' then none else some (String.ofList name, name.length)
        | _ => none
  let cursor := s.cursor.skip size
  if atGap cursor.rest || (inFlow && cursor.rest.head? == some ',') then
    return { s.emit (.tag name) with cursor := cursor, keyAllowed := false }
  else none

def blockScalar (fuel : Nat) (s : Scan) (literal : Bool) : Option Scan := do
  let s ← s.dropKey
  let (text, cursor) ← readBlock fuel literal s.indent (s.cursor.skip 1)
  return { s.emit (.scalar false (String.ofList text)) with cursor := cursor, keyAllowed := true }

def quotedScalar (fuel : Nat) (s : Scan) (single : Bool) : Option Scan := do
  let s ← s.saveKey
  let (text, cursor) ← readQuoted fuel single (s.cursor.skip 1)
  return { s.emit (.scalar false (String.ofList text)) with cursor := cursor, keyAllowed := false }

def plainScalar (fuel : Nat) (s : Scan) : Option Scan := do
  let s ← s.saveKey
  let (text, cursor, crossed) ← readPlain fuel (s.flow != 0) (s.indent + 1).toNat s.cursor
  return { s.emit (.scalar true (String.ofList text)) with
    cursor := cursor
    keyAllowed := crossed }

/-- A line with a directive. Only the version of the format can be given. -/
def directive (s : Scan) : Option Scan := do
  let s ← s.outermost
  let line := String.ofList (s.cursor.rest.takeWhile fun c => !isBreak c)
  if line == "%YAML 1.1" || line == "%YAML 1.2" then
    return { s.emit .directive with cursor := s.cursor.toBreak }
  else none

/-- Characters that no plain scalar starts with, wherever they stand. -/
def isIndicator (c : Char) : Bool := "-?:,[]{}#&*!|>'\"%@`".toList.contains c

/-- Reads the next token, which starts with `c`. -/
def next (fuel : Nat) (s : Scan) (c : Char) (behind : List Char) : Option Scan :=
  let alone := atGap behind
  let inFlow := s.flow != 0
  if s.cursor.column == 0 && c == '%' then s.directive
  else if s.cursor.atMarker then do
    let s ← s.outermost
    return s.mark 3 (if c == '-' then .documentStart else .documentEnd)
  else if c == '[' then s.openFlow .flowSequence
  else if c == '{' then s.openFlow .flowMapping
  else if c == ']' then s.closeFlow .flowSequenceEnd
  else if c == '}' then s.closeFlow .flowMappingEnd
  else if c == ',' then do
    let s ← s.dropKey
    return { s.mark 1 .flowEntry with keyAllowed := true }
  else if c == '-' && alone then s.blockEntry
  else if c == '?' && (inFlow || alone) then s.keyMark
  else if c == ':' && (inFlow || alone) then s.valueMark
  else if c == '*' then s.anchorName .reference
  else if c == '&' then s.anchorName .anchor
  else if c == '!' then s.tagName
  else if c == '|' && !inFlow then blockScalar fuel s true
  else if c == '>' && !inFlow then blockScalar fuel s false
  else if c == '\'' then quotedScalar fuel s true
  else if c == '"' then quotedScalar fuel s false
  else if !(isGap c || isIndicator c) then plainScalar fuel s
  else if c == '-' && !(behind.head?.any isGap) then plainScalar fuel s
  else if !inFlow && (c == '?' || c == ':') && !alone then plainScalar fuel s
  else none

/-- Reads tokens up to the end of the text. Each takes a character at least, so that what is
left of the fuel is enough for what is left of the text. -/
def run : Nat → Scan → Option Scan
  | 0, _ => none
  | fuel + 1, s =>
      let s := skipGaps (fuel + 1) s
      let s := s.unroll s.cursor.column
      match s.cursor.rest with
      | [] => s.outermost
      | c :: behind => (next (fuel + 1) s c behind).bind (run fuel)

end Scan

/-- The tokens of a text, if it can be divided into tokens. -/
def Token.ofText? (text : List Char) : Option (List Token) :=
  let text := match text with
    | '\ufeff' :: rest => rest
    | _ => text
  if text.all isAllowed then
    let text := normalizeBreaks text
    (Scan.run (text.length + 2) (Scan.start text)).map fun s => s.tokens.toList
  else none

end DocPath.Yaml
