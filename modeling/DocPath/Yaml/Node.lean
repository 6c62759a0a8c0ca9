import DocPath.Yaml.Token

/-! Nodes: the collections and scalars that a list of tokens stands for. -/

namespace DocPath.Yaml

/-- Nodes keep their tags. References have been replaced by what they refer to. -/
inductive Node where
  | scalar (tag : Option String) (plain : Bool) (text : String)
  | sequence (tag : Option String) (items : List Node)
  | mapping (tag : Option String) (entries : List (Node × Node))

namespace Node

/-- What stands where nothing was written. -/
def empty (tag : Option String) : Node := .scalar tag true ""

/-- The nodes named so far, the latest first. -/
abbrev Anchors := List (String × Node)

/-- A result, the names known behind it, and the tokens left. -/
abbrev Reading (α : Type) := α × Anchors × List Token

/-- The anchor and the tag in front of a node, in either order. -/
def properties : List Token → Option String × Option String × List Token
  | .anchor a :: .tag t :: rest => (some a, some t, rest)
  | .tag t :: .anchor a :: rest => (some a, some t, rest)
  | .anchor a :: rest => (some a, none, rest)
  | .tag t :: rest => (none, some t, rest)
  | rest => (none, none, rest)

def name (anchor : Option String) (node : Node) (anchors : Anchors) : Anchors :=
  match anchor with
  | some a => (a, node) :: anchors
  | none => anchors

/-- Whether a list of tokens starts with one of the given ones. -/
def startsWith (tokens : List Token) (heads : List Token) : Bool :=
  tokens.head?.any heads.contains

mutual

/-- A node. Block collections may stand only where `block` says so, and the entries of a
sequence without indentation only where `loose` does. -/
def node : Nat → Bool → Bool → Anchors → List Token → Option (Reading Node)
  | 0, _, _, _, _ => none
  | fuel + 1, block, loose, anchors, tokens =>
      match tokens with
      | .reference a :: rest => (anchors.lookup a).map (·, anchors, rest)
      | _ =>
        let (anchor, tag, tokens) := properties tokens
        let finish (r : Node × Anchors × List Token) : Node × Anchors × List Token :=
          (r.1, name anchor r.1 r.2.1, r.2.2)
        Option.map finish <|
          match tokens with
          | .scalar plain text :: rest => some (.scalar tag plain text, anchors, rest)
          | .flowSequence :: rest =>
              (flowItems fuel true anchors rest).map fun r => (.sequence tag r.1, r.2)
          | .flowMapping :: rest =>
              (flowEntries fuel true anchors rest).map fun r => (.mapping tag r.1, r.2)
          | .entry :: _ =>
              if loose then
                (looseItems fuel anchors tokens).map fun r => (.sequence tag r.1, r.2)
              else if anchor.isSome || tag.isSome then some (empty tag, anchors, tokens)
              else none
          | .blockSequence :: rest =>
              if block then
                (blockItems fuel anchors rest).map fun r => (.sequence tag r.1, r.2)
              else if anchor.isSome || tag.isSome then some (empty tag, anchors, tokens)
              else none
          | .blockMapping :: rest =>
              if block then
                (blockEntries fuel anchors rest).map fun r => (.mapping tag r.1, r.2)
              else if anchor.isSome || tag.isSome then some (empty tag, anchors, tokens)
              else none
          | _ =>
              if anchor.isSome || tag.isSome then some (empty tag, anchors, tokens) else none

/-- A node, or nothing if one of the given tokens comes first. -/
def nodeUnless : Nat → Bool → Bool → List Token → Anchors → List Token → Option (Reading Node)
  | 0, _, _, _, _, _ => none
  | fuel + 1, block, loose, stops, anchors, tokens =>
      if startsWith tokens stops then some (empty none, anchors, tokens)
      else node fuel block loose anchors tokens

/-- The items of a block sequence, up to its end. -/
def blockItems : Nat → Anchors → List Token → Option (Reading (List Node))
  | 0, _, _ => none
  | fuel + 1, anchors, tokens =>
      match tokens with
      | .entry :: rest => do
          let (item, anchors, rest) ← nodeUnless fuel true false [.entry, .blockEnd] anchors rest
          let (items, anchors, rest) ← blockItems fuel anchors rest
          return (item :: items, anchors, rest)
      | .blockEnd :: rest => some ([], anchors, rest)
      | _ => none

/-- The items of a sequence that is indented no further than the mapping around it. -/
def looseItems : Nat → Anchors → List Token → Option (Reading (List Node))
  | 0, _, _ => none
  | fuel + 1, anchors, tokens =>
      match tokens with
      | .entry :: rest => do
          let (item, anchors, rest) ←
            nodeUnless fuel true false [.entry, .key, .value, .blockEnd] anchors rest
          let (items, anchors, rest) ← looseItems fuel anchors rest
          return (item :: items, anchors, rest)
      | _ => some ([], anchors, tokens)

/-- The entries of a block mapping, up to its end. -/
def blockEntries : Nat → Anchors → List Token → Option (Reading (List (Node × Node)))
  | 0, _, _ => none
  | fuel + 1, anchors, tokens =>
      match tokens with
      | .blockEnd :: rest => some ([], anchors, rest)
      | .key :: rest => do
          let (key, anchors, rest) ←
            nodeUnless fuel true true [.key, .value, .blockEnd] anchors rest
          blockValue fuel key anchors rest
      | _ => none

/-- The value of a block mapping's key, and the entries behind it. -/
def blockValue : Nat → Node → Anchors → List Token → Option (Reading (List (Node × Node)))
  | 0, _, _, _ => none
  | fuel + 1, key, anchors, tokens => do
      let (value, anchors, rest) ← match tokens with
        | .value :: rest => nodeUnless fuel true true [.key, .value, .blockEnd] anchors rest
        | _ => some (empty none, anchors, tokens)
      let (entries, anchors, rest) ← blockEntries fuel anchors rest
      return ((key, value) :: entries, anchors, rest)

/-- The items of a flow sequence, up to its bracket. An item with a key is a mapping of its
own. -/
def flowItems : Nat → Bool → Anchors → List Token → Option (Reading (List Node))
  | 0, _, _, _ => none
  | fuel + 1, first, anchors, tokens =>
      match tokens with
      | .flowSequenceEnd :: rest => some ([], anchors, rest)
      | _ => do
          let tokens ←
            if first then some tokens
            else
              match tokens with
              | .flowEntry :: rest => some rest
              | _ => none
          match tokens with
          | .flowSequenceEnd :: rest => return ([], anchors, rest)
          | .key :: rest =>
              let (key, anchors, rest) ←
                nodeUnless fuel false false [.value, .flowEntry, .flowSequenceEnd] anchors rest
              let (value, anchors, rest) ← match rest with
                | .value :: rest =>
                    nodeUnless fuel false false [.flowEntry, .flowSequenceEnd] anchors rest
                | _ => some (empty none, anchors, rest)
              let (items, anchors, rest) ← flowItems fuel false anchors rest
              return (.mapping none [(key, value)] :: items, anchors, rest)
          | _ =>
              let (item, anchors, rest) ← node fuel false false anchors tokens
              let (items, anchors, rest) ← flowItems fuel false anchors rest
              return (item :: items, anchors, rest)

/-- The entries of a flow mapping, up to its brace. -/
def flowEntries : Nat → Bool → Anchors → List Token → Option (Reading (List (Node × Node)))
  | 0, _, _, _ => none
  | fuel + 1, first, anchors, tokens =>
      match tokens with
      | .flowMappingEnd :: rest => some ([], anchors, rest)
      | _ => do
          let tokens ←
            if first then some tokens
            else
              match tokens with
              | .flowEntry :: rest => some rest
              | _ => none
          match tokens with
          | .flowMappingEnd :: rest => return ([], anchors, rest)
          | .key :: rest =>
              let (key, anchors, rest) ←
                nodeUnless fuel false false [.value, .flowEntry, .flowMappingEnd] anchors rest
              let (value, anchors, rest) ← match rest with
                | .value :: rest =>
                    nodeUnless fuel false false [.flowEntry, .flowMappingEnd] anchors rest
                | _ => some (empty none, anchors, rest)
              let (entries, anchors, rest) ← flowEntries fuel false anchors rest
              return ((key, value) :: entries, anchors, rest)
          | _ =>
              let (key, anchors, rest) ← node fuel false false anchors tokens
              let (entries, anchors, rest) ← flowEntries fuel false anchors rest
              return ((key, empty none) :: entries, anchors, rest)

end

/-- The node of a text with one document at most. Without any, it is empty. -/
def ofTokens? (tokens : List Token) : Option Node :=
  let fuel := 3 * tokens.length + 3
  let content (tokens : List Token) : Option Node :=
    if tokens.isEmpty || startsWith tokens [.documentEnd] then
      finish (empty none) tokens
    else (node fuel true false [] tokens).bind fun r => finish r.1 r.2.2
  match tokens with
  | [] => some (empty none)
  | .documentStart :: rest => content rest
  | .directive :: .documentStart :: rest => content rest
  | .directive :: _ | .documentEnd :: _ => none
  | tokens => content tokens
where
  /-- Nothing but marks of the document's end may follow its node. -/
  finish (node : Node) (rest : List Token) : Option Node :=
    if rest.all (· == .documentEnd) then some node else none

end Node

end DocPath.Yaml
