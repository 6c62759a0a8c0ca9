import DocPath.Path.Cache
import DocPath.Store.Load
import DocPath.Store.Save

/-! Commands: what can be asked for, what can go wrong, and what there is to report. -/

namespace DocPath

/-- What to do with a document, or with patterns alone. Without a file, the document is read
from the input. -/
inductive Command where
  | read (pattern : String) (file : Option String)
  | write (pattern value : String) (file : Option String) (inPlace : Bool)
  | remove (pattern : String) (file : Option String) (inPlace : Bool)
  | test (pattern : String) (file : Option String)
  | compare (pattern candidate : String)
  | explain (pattern : String)
deriving DecidableEq

namespace Command

/-- The file a command works on. -/
def file? : Command → Option String
  | .read _ file | .write _ _ file _ | .remove _ file _ | .test _ file => file
  | .compare .. | .explain _ => none

/-- Whether a command reads its document from the input. -/
def readsInput : Command → Bool
  | .compare .. | .explain _ => false
  | command => command.file?.isNone

end Command

/-- A command, and the format asked for in place of the configured one. -/
structure Invocation where
  command : Command
  format : Option OutputFormat
deriving DecidableEq

/-- Why a command fails. -/
inductive CommandError where
  | load (file : String) (cause : LoadError)
  | noInput
  | input (cause : InputError)
  | value
  | path (cause : PathError)
  | noFile
  | save (file : String) (cause : SaveError)
deriving DecidableEq

/-- What is said of a failure. Causes of failures with a file are left unsaid. -/
def CommandError.message : CommandError → String
  | .load file _ => "Failed to load " ++ file
  | .noInput => "No input: pass a FILE or pipe a document on stdin"
  | .input cause => cause.message
  | .value => "Failed to parse VALUE as YAML"
  | .path cause => cause.message
  | .noFile => "--in-place requires a FILE"
  | .save file _ => "Failed to save " ++ file

/-- What a command prints: its output, and the complaint with which it fails, if it does. An
empty complaint fails in silence. -/
structure Report where
  output : String
  complaint : Option String
deriving DecidableEq

/-- A report of success. -/
def Report.ok (output : String) : Report := ⟨output, none⟩

def Report.failed : CommandError → Report := fun e => ⟨"", some ("Error: " ++ e.message)⟩

/-- Commands change the directory they are run in. -/
abbrev CommandM := ExceptT CommandError (StateM Directory)

end DocPath
