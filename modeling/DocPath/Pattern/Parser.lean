import DocPath.Pattern.Chain
import DocPath.Pattern.Lexeme

/-! From texts to chains. Each reader takes the text in front of it and hands back what is
left. A reader calls itself or another one only with one unit of fuel less, and between two
calls on the same text a character is consumed, so two units for each character are enough. -/

namespace DocPath

namespace Pattern

/-- Takes a token that has to come next. -/
def expect (inside : Bool) (m : Mark) (expected : Expected) (text : List Char) :
    Except ParseError (List Char) := do
  let t ← Lexeme.next inside text
  if t.token = .mark m then return t.rest else throw (t.unexpected expected)

/-- Takes a token if it comes next. -/
def accept (m : Mark) (text : List Char) : Except ParseError (Bool × List Char) := do
  let t ← Lexeme.next false text
  if t.token = .mark m then return (true, t.rest) else return (false, text)

/-! ## Templates -/

/-- A property behind its name, with `value` to read what it is bound to. -/
def property (value : List Char → Except ParseError (Slot × List Char)) (key : String)
    (text : List Char) : Except ParseError (Property × List Char) := do
  let u ← Lexeme.next true text
  if u.token = .mark .colon then
    let (slot, text) ← value u.rest
    return (.bound key slot, text)
  else return (.plain key, text)

mutual

/-- The properties of an object template, behind its opening brace. -/
def properties : Nat → List Char → Except ParseError (List Property × List Char)
  | 0, _ => .error (.unexpectedEnd .propertyName)
  | fuel + 1, text => do
    let t ← Lexeme.next true text
    match t.token with
    | .mark .braceR => return ([], t.rest)
    | .name key =>
      if key.isEmpty then throw (t.unexpected .propertyName)
      let (property, text) ← property (slot fuel) key t.rest
      let u ← Lexeme.next true text
      match u.token with
      | .mark .comma =>
        let (more, text) ← properties fuel u.rest
        return (property :: more, text)
      | .mark .braceR => return ([property], u.rest)
      | _ => throw (u.unexpected .commaOrBrace)
    | _ => throw (t.unexpected .propertyName)

/-- The elements of an array template, behind its opening bracket. -/
def elements : Nat → List Char → Except ParseError (List Slot × List Char)
  | 0, _ => .error (.unexpectedEnd .slot)
  | fuel + 1, text => do
    let t ← Lexeme.next true text
    if t.token = .mark .bracketR then return ([], t.rest)
    let (element, text) ← slot fuel text
    let u ← Lexeme.next true text
    match u.token with
    | .mark .comma =>
      let (more, text) ← elements fuel u.rest
      return (element :: more, text)
    | .mark .bracketR => return ([element], u.rest)
    | _ => throw (u.unexpected .commaOrBracket)

/-- A value position of a template. -/
def slot : Nat → List Char → Except ParseError (Slot × List Char)
  | 0, _ => .error (.unexpectedEnd .slot)
  | fuel + 1, text => do
    let t ← Lexeme.next true text
    match t.token with
    | .name name =>
      if name.isEmpty then throw (t.unexpected .slot)
      return (.name name, t.rest)
    | .mark .braceL =>
      let (members, text) ← properties fuel t.rest
      return (.nested (.object members), text)
    | .mark .bracketL =>
      let (members, text) ← elements fuel t.rest
      return (.nested (.array members), text)
    | _ => throw (t.unexpected .slot)

end

/-- The template whose opening bracket was the last token. -/
def template (fuel : Nat) (opening : Mark) (text : List Char) :
    Except ParseError (Template × List Char) := do
  if opening = .braceL then
    let (members, text) ← properties fuel text
    return (.object members, text)
  else
    let (members, text) ← elements fuel text
    return (.array members, text)

/-- A destructuring expression at the start of `text`. Its source is the text it takes up,
without blanks, and no further segment may follow it. -/
def destructor (fuel : Nat) (opening : Lexeme) (m : Mark) :
    Except ParseError (Destructor × List Char) := do
  let (shape, rest) ← template fuel m opening.rest
  let t ← Lexeme.next false rest
  if t.token = .mark .dot then throw (.segmentAfterDestructor t.left)
  let taken := opening.start.take (opening.start.length - rest.length)
  return (⟨shape, String.ofList (withoutBlanks taken)⟩, rest)

/-! ## Ranges and indices -/

/-- One bound of a range, if there is one. -/
def bound (text : List Char) : Except ParseError (Option Int × List Char) := do
  let t ← Lexeme.next false text
  match t.token with
  | .name digits =>
    match Numeral.signedWord? digits.toList with
    | some n => return (some n, t.rest)
    | none => throw (.invalidBound digits)
  | _ => return (none, text)

/-- A range, behind its opening bracket: `s:e` with either bound left out, or a single
number. -/
def range (text : List Char) : Except ParseError (Bounds × List Char) := do
  let (low, text) ← bound text
  let t ← Lexeme.next false text
  if t.token = .mark .colon then
    let (high, text) ← bound t.rest
    let text ← expect false .bracketR .closingBracket text
    return (⟨low, high⟩, text)
  else if low.isSome then
    let text ← expect false .bracketR .closingBracket text
    return (⟨low, low⟩, text)
  else if t.token = .mark .bracketR then throw (.emptyRange t.left)
  else throw (t.unexpected .rangeBound)

/-- The indices in brackets behind a name. -/
def indices : Nat → List Char → Except ParseError (List String × List Char)
  | 0, text => .ok ([], text)
  | fuel + 1, text => do
    let t ← Lexeme.next false text
    if t.token = .mark .bracketL then
      let u ← Lexeme.next false t.rest
      match u.token with
      | .name index =>
        if index.isEmpty then throw (u.unexpected .arrayIndex)
        let text ← expect false .bracketR .closingBracket u.rest
        let (more, text) ← indices fuel text
        return (index :: more, text)
      | _ => throw (u.unexpected .arrayIndex)
    else return ([], text)

/-- The steps of a name with its indices. Only the last of them is expanded. -/
def nameSteps (bracketed : Bool) (text : String) (more : List String) (expand : Bool) :
    List Step :=
  match more with
  | [] => [.name text bracketed expand]
  | index :: more => .name text bracketed false :: nameSteps true index more expand

/-! ## Chains -/

mutual

/-- A segment and everything chained to it. -/
def chain : Nat → List Char → Except ParseError (Chain × List Char)
  | 0, _ => .error (.unexpectedEnd .segment)
  | fuel + 1, text => do
    let t ← Lexeme.next false text
    match t.token with
    | .name name =>
      if name.isEmpty then throw (.emptyIdentifier t.left)
      let (more, text) ← indices fuel t.rest
      let (expand, text) ← accept .tilde text
      let (after, text) ← link fuel text
      return (nameSteps false name more expand ++ after, text)
    | .verbatim body =>
      let (after, text) ← link fuel t.rest
      return (.verbatim (stripBlanks body) :: after, text)
    | .mark .star =>
      let (step, text) ← wildcard fuel t.rest
      let (after, text) ← link fuel text
      return (step :: after, text)
    | .mark .braceL =>
      let (d, text) ← destructor fuel t .braceL
      return ([.destructor d], text)
    | .mark .bracketL =>
      let (d, text) ← destructor fuel t .bracketL
      return ([.destructor d], text)
    | _ => throw (t.unexpected .segment)

/-- The rest of a chain: nothing, or a dot and a chain. -/
def link : Nat → List Char → Except ParseError (Chain × List Char)
  | 0, _ => .error (.unexpectedEnd .segment)
  | fuel + 1, text => do
    let (dotted, text) ← accept .dot text
    if dotted then chain fuel text else return ([], text)

/-- The filter of a wildcard, behind its star. -/
def wildcard : Nat → List Char → Except ParseError (Step × List Char)
  | 0, _ => .error (.unexpectedEnd .segment)
  | fuel + 1, text => do
    let t ← Lexeme.next false text
    match t.token with
    | .mark .parenL =>
      let (exclude, text) ← accept .bang t.rest
      let (group, text) ← members fuel text
      return (.group exclude group, text)
    | .mark .bracketL =>
      let (bounds, text) ← range t.rest
      return (.range bounds, text)
    | _ => return (.any, text)

/-- The members of a group, behind its opening and the `!` that may lead it. -/
def members : Nat → List Char → Except ParseError (List Chain × List Char)
  | 0, _ => .error (.unexpectedEnd .segment)
  | fuel + 1, text => do
    let t ← Lexeme.next false text
    if t.token = .mark .bang then throw (.strayBang t.left)
    let (member, text) ← chain fuel text
    let u ← Lexeme.next false text
    match u.token with
    | .mark .comma =>
      let (more, text) ← members fuel u.rest
      return (member :: more, text)
    | .mark .parenR => return ([member], u.rest)
    | _ => throw (u.unexpected .commaOrParen)

end

/-- A whole pattern: a chain with nothing behind it, or no token at all. -/
def whole (fuel : Nat) (text : List Char) : Except ParseError Chain := do
  let t ← Lexeme.next false text
  if t.token = .eof then return []
  let (steps, text) ← chain fuel text
  let u ← Lexeme.next false text
  if u.token = .eof then return steps else throw (u.unexpected .dotOrEnd)

end Pattern

/-- The chain a text stands for. -/
def Chain.parse (text : String) : Except ParseError Chain :=
  let chars := text.toList
  (Pattern.whole (2 * chars.length + 2) chars).mapError (ParseError.locate chars.length)

/-- The destructuring expression a text stands for, if its pattern starts with one. -/
def Destructor.parse (text : String) : Except ParseError Destructor :=
  match Chain.parse text with
  | .error fault => .error fault
  | .ok (.destructor d :: _) => .ok d
  | .ok _ => .error (.notDestructor text)

end DocPath
