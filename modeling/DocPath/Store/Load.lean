import DocPath.Json.Reader
import DocPath.Yaml.Reader
import DocPath.Store.Directory

/-! Documents read from files, and from texts whose format is not known. -/

namespace DocPath

/-- Why no document can be read from a file. -/
inductive LoadError where
  | missing
  | unpack
  | read
  | json
  | yaml
deriving DecidableEq

def LoadError.message : LoadError → String
  | .missing => "Failed to open gzipped file"
  | .unpack => "Failed to decompress gzipped file - file may be corrupted"
  | .read => "Failed to read file"
  | .json => "Failed to parse JSON"
  | .yaml => "Failed to parse YAML"

namespace Directory

/-- The text of a file. The extension of its name tells whether it has to be unpacked. -/
def readText (d : Directory) (name : String) : Except LoadError String :=
  if FileName.extension? name = some "gz" then
    match d.get? name with
    | some (.packed text) => .ok text
    | some _ => .error .unpack
    | none => .error .missing
  else
    match d.get? name with
    | some (.text text) => .ok text
    | _ => .error .read

/-- The document of a file. Names that ask for JSON are taken at their word, all else is read
as YAML. -/
def load (d : Directory) (name : String) : Except LoadError Document := do
  let text ← d.readText name
  if FileName.format? name = some .json then
    match Document.ofJson? text with
    | some doc => .ok doc
    | none => .error .json
  else
    match Document.ofYaml? text with
    | some doc => .ok doc
    | none => .error .yaml

end Directory

/-- Why no document can be read from an input that has no name. -/
inductive InputError where
  | unpack
  | encoding
  | parse
deriving DecidableEq

def InputError.message : InputError → String
  | .unpack => "Failed to decompress gzipped stdin"
  | .encoding => "Invalid UTF-8 in stdin"
  | .parse => "Failed to parse input: content is neither valid JSON nor valid YAML"

/-- The document of a text: as JSON if it can be, and otherwise as YAML. -/
def Document.ofText (text : String) : Except InputError Document :=
  match Document.ofJson? text with
  | some doc => .ok doc
  | none =>
      match Document.ofYaml? text with
      | some doc => .ok doc
      | none => .error .parse

namespace Content

/-- The text of an input. Its first bytes tell whether it has to be unpacked. -/
def inputText : Content → Except InputError String
  | .text s | .packed s => .ok s
  | .bytes data => .error (if Gzip.mark.isPrefixOf data then .unpack else .encoding)

end Content

end DocPath
