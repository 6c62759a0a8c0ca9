import DocPath.Path.Basic
import DocPath.Text.Outline

/-! Outlines of paths and of the chains of match patterns, and explanations made of them. -/

namespace DocPath

namespace Template

def Kind.describe : Kind → String
  | .object => "Object"
  | .array => "Array"

mutual

def outline : Template → Outline
  | .object properties =>
      .tuple "Object"
        [.record "ObjectPattern" [("properties", .list (propertyOutlines properties))]]
  | .array elements =>
      .tuple "Array" [.record "ArrayPattern" [("elements", .list (slotOutlines elements))]]

def propertyOutlines : List Property → List Outline
  | [] => []
  | property :: rest => propertyOutline property :: propertyOutlines rest

def propertyOutline : Property → Outline
  | .plain key =>
      .record "ObjectPatternProperty" [("key", .text key), ("value", .option none)]
  | .bound key slot =>
      .record "ObjectPatternProperty" [("key", .text key), ("value", .option (slotOutline slot))]

def slotOutlines : List Slot → List Outline
  | [] => []
  | slot :: rest => slotOutline slot :: slotOutlines rest

def slotOutline : Slot → Outline
  | .name name => .tuple "Identifier" [.text name]
  | .nested template => outline template

end

end Template

namespace Destructor

def outline (d : Destructor) : Outline :=
  .record "Destructor"
    [("source", .text d.source), ("kind", .word d.kind.describe), ("rules", .nat d.rules.length)]

end Destructor

namespace Segment

def outline : Segment → Outline
  | .key (.name name) => .tuple "Key" [.text name]
  | .key (.index n) => .tuple "Index" [.nat n]
  | .destructor d => .tuple "Destructor" [d.outline]

end Segment

namespace Path

def outline (path : Path) : Outline :=
  .record "Path"
    [("entire", .text path.entire), ("segments", .list (path.segments.map Segment.outline)),
      ("is_match_pattern", .bool path.isMatch)]

end Path

/-! ## Chains

A chain is shown as nodes, each holding the one after it. Dots between steps and the mark of an
expanded name are nodes too. -/

namespace Chain

/-- One node, and the node it holds. -/
def node (kind : Outline) (after : Option Outline) : Outline :=
  .record "Node" [("kind", kind), ("after", .option after)]

/-- A wildcard with its filter. -/
def wildcard (filter : Option Outline) : Outline :=
  .tuple "Wildcard" [.record "Wildcard" [("filter", .option filter)]]

mutual

/-- The node of a step that holds the nodes `after` it. -/
def stepOutline (after : Option Outline) : Step → Outline
  | .name text bracketed expand =>
      node (.tuple "Identifier"
          [.record "Identifier" [("value", .text text), ("array_index", .bool bracketed)]])
        (if expand then some (node (.word "Expand") after) else after)
  | .verbatim text => node (.tuple "Ignore" [.text text]) after
  | .any => node (wildcard none) after
  | .range bounds =>
      node (wildcard (some (.tuple "Range" [.record "RangeExpression"
        [("start", .option (bounds.low.map .int)), ("end", .option (bounds.high.map .int))]])))
        after
  | .group exclude members =>
      node (wildcard (some (.tuple "Group" [.record "GroupExpression"
        [("members", .list (memberOutlines members)), ("is_exclude", .bool exclude)]])))
        after
  | .destructor d =>
      node (.tuple "Destructor" [.record "DestructorExpression"
        [("pattern", d.template.outline), ("source", .text d.source)]]) after

/-- The nodes of a chain, unless it is empty. -/
def outline? : List Step → Option Outline
  | [] => none
  | step :: rest =>
      some (stepOutline ((outline? rest).map fun next => node (.word "Dot") (some next)) step)

def memberOutlines : List (List Step) → List Outline
  | [] => []
  | member :: rest => (outline? member).toList ++ memberOutlines rest

end

end Chain

/-! ## Explanations

A pattern is explained by its kind, and by the chain or the segments it is made of. -/

namespace Rule

/-- A rule by where it writes and where it reads. -/
def describe (rule : Rule) : String :=
  joinSegments (rule.key.map .key) ++ " <- " ++ joinSegments (rule.path.map .key)

end Rule

namespace Destructor

/-- The lines that explain a destructuring expression: one for it, and one for each rule. -/
def explain (d : Destructor) : List String :=
  ("destructor " ++ d.source ++ " (" ++ d.kind.describe ++ "):") ::
    d.rules.map fun rule => "  " ++ rule.describe

end Destructor

namespace Path

/-- The parts of a path: the outline of its chain, or its segments and what they unpack. -/
def explainParts (path : Path) : List String :=
  match path with
  | .pattern _ chain =>
      match Chain.outline? chain with
      | some outline => ["tree: " ++ outline.block 0]
      | none => []
  | .literal _ segments =>
      let outlines := segments.map fun segment => segment.outline.inline
      ("segments: [" ++ ", ".intercalate outlines ++ "]") ::
        (segments.filterMap Segment.destructor?).flatMap Destructor.explain

/-- The lines that explain a path. -/
def explain (path : Path) : List String :=
  ["entire: " ++ path.entire,
    "match pattern: " ++ toString path.isMatch,
    "wildcard: " ++ toString path.isWild,
    "exclusion: " ++ toString path.hasExclusion] ++ path.explainParts

end Path

end DocPath
