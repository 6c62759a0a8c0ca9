import DocPath.Yaml.Node
import DocPath.Yaml.Schema

/-! Documents read from block-style texts. -/

namespace DocPath

namespace Yaml

/-- The document of a plain scalar. Numbers that are not finite become null. -/
def plainDocument? (text : String) : Option Document :=
  match Plain.ofText text with
  | .null => some .null
  | .bool b => some (.bool b)
  | .whole n => some (.number (.whole n))
  | .tooWide => none
  | .binary x => some (.number (.binary x))
  | .unbounded => some .null
  | .text => some (.text text)

/-- The document of a scalar. A core tag forces its type, a local tag is refused. -/
def scalarDocument? (tag : Option String) (plain : Bool) (text : String) : Option Document :=
  match tag with
  | none => if plain then plainDocument? text else some (.text text)
  | some tag =>
      if tag.startsWith "!" then none
      else
        match tag, Plain.ofText text with
        | "tag:yaml.org,2002:bool", .bool b => some (.bool b)
        | "tag:yaml.org,2002:bool", _ => none
        | "tag:yaml.org,2002:int", .whole n => some (.number (.whole n))
        | "tag:yaml.org,2002:int", _ => none
        | "tag:yaml.org,2002:null", .null => if text == "" then none else some .null
        | "tag:yaml.org,2002:null", _ => none
        | "tag:yaml.org,2002:float", p =>
            if p matches .unbounded then some .null
            else (binary? text.toList).map fun x => .number (.binary x)
        | _, _ => some (.text text)

/-- Collections may be tagged with core tags only. -/
def isLocal (tag : Option String) : Bool := tag.any fun t => t.startsWith "!"

/-- Collections may be nested this deep. -/
def depthLimit : Nat := 128

mutual

/-- The document of a node that may hold collections of the given depth. Keys are read as
texts. -/
def document? : Nat → Node → Option Document
  | _, .scalar tag plain text => scalarDocument? tag plain text
  | 0, _ => none
  | depth + 1, .sequence tag items =>
      if isLocal tag then none else (items? depth items).map .array
  | depth + 1, .mapping tag entries =>
      if isLocal tag then none else (entries? depth entries).map Document.ofEntries

def items? : Nat → List Node → Option (List Document)
  | _, [] => some []
  | depth, item :: rest => do
      let item ← document? depth item
      let rest ← items? depth rest
      return item :: rest

def entries? : Nat → List (Node × Node) → Option (List (String × Document))
  | _, [] => some []
  | depth, (key, value) :: rest => do
      let key ← match key with
        | .scalar _ _ text => some text
        | _ => none
      let value ← document? depth value
      let rest ← entries? depth rest
      return (key, value) :: rest

end

end Yaml

/-- The document a block-style text stands for. -/
def Document.ofYaml? (text : String) : Option Document := do
  let tokens ← Yaml.Token.ofText? text.toList
  let node ← Yaml.Node.ofTokens? tokens
  Yaml.document? Yaml.depthLimit node

end DocPath
