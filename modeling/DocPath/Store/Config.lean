import DocPath.Toml.Reader

/-! Configuration: the formats documents are written in, how they are written, and the settings
that say so. -/

namespace DocPath

/-! ## Formats -/

inductive OutputFormat where
  | yaml
  | json
deriving DecidableEq

/-- A name that no format goes by. -/
structure UnknownFormat where
  name : String

def UnknownFormat.message (e : UnknownFormat) : String := "Unknown output format: " ++ e.name

namespace OutputFormat

def name : OutputFormat → String
  | yaml => "yaml"
  | json => "json"

/-- The format with exactly this name. -/
def ofName? (text : String) : Option OutputFormat :=
  if text = "yaml" then some yaml else if text = "json" then some json else none

/-- The format a user asks for. Case does not matter, and YAML has a short name too. -/
def parse (text : String) : Except UnknownFormat OutputFormat :=
  let lower := text.map Char.toLower
  if lower = "yml" then .ok yaml
  else
    match ofName? lower with
    | some format => .ok format
    | none => .error ⟨lower⟩

@[simp] theorem ofName?_name (format : OutputFormat) : ofName? format.name = some format := by
  cases format <;> simp [name, ofName?]

end OutputFormat

/-! ## Settings -/

structure Config where
  outputFormat : OutputFormat := .yaml
  /-- The spaces for each level of indented JSON. -/
  indentSize : Nat := 2
  /-- Whether a file is kept under another name before it is written over. -/
  createBackup : Bool := false
  /-- Whether JSON is indented. -/
  pretty : Bool := true
deriving DecidableEq

namespace Config

/-- A flag among the settings, which has to be a truth value if it is there. -/
def flag? (settings : Toml.Entries) (name : String) (preset : Bool) : Option Bool :=
  match settings.lookup name with
  | none => some preset
  | some (.bool b) => some b
  | some _ => none

/-- The configuration that settings stand for. Settings under other names do not matter. -/
def ofSettings? (settings : Toml.Entries) : Option Config := do
  let outputFormat ← match settings.lookup "output_format" with
    | none => some .yaml
    | some (.text name) => OutputFormat.ofName? name
    | some _ => none
  let indentSize ← match settings.lookup "indent_size" with
    | none => some 2
    | some (.integer n) => if 0 ≤ n then some n.toNat else none
    | some _ => none
  let createBackup ← flag? settings "create_backup" false
  let pretty ← flag? settings "pretty" true
  return { outputFormat, indentSize, createBackup, pretty }

/-- The configuration that a text stands for. A text with any fault counts as no text. -/
def ofText (text : String) : Config :=
  ((Toml.parse? text).bind ofSettings?).getD {}

/-- The settings of a configuration, one on each line. -/
def toText (config : Config) : String :=
  "output_format = \"" ++ config.outputFormat.name ++ "\"\n" ++
    "indent_size = " ++ String.ofList (Nat.toDigits 10 config.indentSize) ++ "\n" ++
    "create_backup = " ++ toString config.createBackup ++ "\n" ++
    "pretty = " ++ toString config.pretty ++ "\n"

end Config

end DocPath
