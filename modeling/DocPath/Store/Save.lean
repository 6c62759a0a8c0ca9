import DocPath.Json.Writer
import DocPath.Store.Directory
import DocPath.Yaml.Writer

/-! Documents written to files, in the format and the layout that a configuration asks for. A file
is written under a temporary name first, and then renamed. -/

namespace DocPath

/-! ## Texts of documents -/

/-- A text with a line end behind its last line. -/
def endLastLine (text : String) : String :=
  if text.toList.getLast? = some '\n' then text else text.push '\n'

/-- The text of a document in a format. -/
def Document.render (doc : Document) (format : OutputFormat) (config : Config) : String :=
  endLastLine <|
    match format with
    | .yaml => doc.toYaml
    | .json => if config.pretty then doc.toIndentedJson config.indentSize else doc.toJson

/-! ## Files of documents -/

/-- Why a document cannot be written. -/
inductive SaveError where
  | backup
  | writeText
  | writePacked
  | rename
deriving DecidableEq

def SaveError.message : SaveError → String
  | .backup => "Failed to create backup"
  | .writeText => "Failed to write temp file"
  | .writePacked => "Failed to create temp file"
  | .rename => "Failed to rename temp file"

/-- A change to a directory. What was done before a failure is not undone. -/
abbrev SaveM := ExceptT SaveError (StateM Directory)

namespace Directory

/-- Writes a file, if there can be one of this name. -/
def write (name : String) (content : Content) (fault : SaveError) : SaveM Unit := do
  if (← get).canHold name then modify fun d => d.put name content else throw fault

/-- Gives a file another name, if there can be one of that name. -/
def move (old new : String) (fault : SaveError) : SaveM Unit := do
  if (← get).canHold new then modify fun d => d.rename old new else throw fault

/-- Keeps what a file holds under another name. A file that is missing needs no backup. -/
def keepBackup (name : String) : SaveM Unit := do
  match (← get).get? name with
  | some content => write (FileName.backup name) content .backup
  | none => pure ()

/-- What a file is to hold. The end of its name tells whether it is compressed, and its format
if it tells one. -/
def contentFor (name : String) (doc : Document) (config : Config) : Content :=
  let text := doc.render ((FileName.format? name).getD config.outputFormat) config
  if FileName.hasEnding ".gz" name then .packed text else .text text

/-- Writes a document to a file. -/
def save (name : String) (doc : Document) (config : Config) : SaveM Unit := do
  if config.createBackup then keepBackup name
  let content := contentFor name doc config
  let fault : SaveError := match content with
    | .packed _ => .writePacked
    | _ => .writeText
  write (FileName.temporary name) content fault
  move (FileName.temporary name) name .rename

end Directory

end DocPath
